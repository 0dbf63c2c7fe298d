import BTron.Graphics.Lines

namespace BTron.Graphics

variable {γ : Type}

-- The calls that draw
inductive Drawing (γ : Type)
  | drwPnt (x y : Int)
  | drwLin (x1 y1 x2 y2 : Int)
  | drwRec (r : Rect)
  | fillRec (r : Rect) (col : γ)

-- What the call has drawn after at most `n` turns of each loop of `drw_lin`.
def Drawing.draw (black : γ) (n : Nat) (dev : Gdev γ) : Drawing γ → Gdev γ
  | .drwPnt x y => Graphics.drwPnt black dev x y
  | .drwLin x1 y1 x2 y2 => (Graphics.drwLin black n dev x1 y1 x2 y2).1
  | .drwRec r => (Graphics.drwRec black n dev r).1
  | .fillRec r col => Graphics.fillRec dev r col

def Drawing.AllH : Drawing γ → Prop
  | .drwPnt x y => (-32768 ≤ x ∧ x < 32768) ∧ -32768 ≤ y ∧ y < 32768
  | .drwLin x1 y1 x2 y2 => EndsIsH x1 y1 x2 y2
  | .drwRec r => r.AllH
  | .fillRec r _ => r.AllH

-- A device, as `opn_dev` makes it, with a clip that is a part of it
structure Gdev.Clipped (dev : Gdev γ) : Prop where
  width : 0 < dev.width ∧ dev.width < 32768
  height : 0 < dev.height ∧ dev.height < 32768
  clip : dev.clip.AllH
  low : 0 ≤ dev.clip.left ∧ 0 ≤ dev.clip.top
  high : dev.clip.right ≤ dev.width ∧ dev.clip.bottom ≤ dev.height

theorem setClip_clipped {dev : Gdev γ} (hw : 0 < dev.width ∧ dev.width < 32768)
    (hh : 0 < dev.height ∧ dev.height < 32768) {clip : Option Rect}
    (hclip : ∀ r ∈ clip, r.AllH) : (setClip dev clip).Clipped := by
  cases clip with
  | none =>
      rw [setClip]
      refine ⟨hw, hh, ⟨?_, ?_, ?_, ?_⟩, ⟨?_, ?_⟩, ?_, ?_⟩ <;> simp only <;> omega
  | some r =>
      obtain ⟨hleft, htop, hright, hbottom⟩ := hclip r rfl
      rw [setClip]
      refine ⟨hw, hh, ⟨?_, ?_, ?_, ?_⟩, ⟨?_, ?_⟩, ?_, ?_⟩ <;> simp only <;> split <;> omega

-- The pixel has the value from some turn on.
def Drawing.Leaves (black : γ) (d : Drawing γ) (dev : Gdev γ) (x y : Int) (col : γ) : Prop :=
  ∃ m, ∀ n ≥ m, (d.draw black n dev).at x y = col

-- The call changes pixels of the clip and the device only, and those as without the clip.
structure Clips (black : γ) (dev : Gdev γ) (d : Drawing γ) : Prop where
  inside : ∀ n i, (d.draw black n dev).pixels i ≠ dev.pixels i →
    ∃ x y, (0 ≤ x ∧ x < dev.width) ∧ (0 ≤ y ∧ y < dev.height) ∧ dev.clip.contains x y ∧
      y * dev.width + x = i
  part : ∀ x y, 0 ≤ x ∧ x < dev.width → 0 ≤ y ∧ y < dev.height → ∀ col,
    d.Leaves black dev x y col ↔
      if dev.clip.contains x y then d.Leaves black (setClip dev none) x y col
      else dev.at x y = col

-- Some drawing by turns that gives the points of `Q` that are in the clip a colour.
structure Law (dev : Gdev γ) (draw : Nat → Gdev γ) (col : γ) (Q : Int → Int → Prop) :
    Prop where
  width : ∀ n, (draw n).width = dev.width
  only : ∀ n i, (draw n).pixels i ≠ dev.pixels i →
    ∃ x y, Q x y ∧ dev.clip.contains x y ∧ y * dev.width + x = i
  each : ∀ x y, Q x y → dev.clip.contains x y → ∃ m, ∀ n ≥ m,
    (draw n).pixels (y * dev.width + x) = col

section Part

variable {dev : Gdev γ} {draw draw' : Nat → Gdev γ} {col : γ} {Q : Int → Int → Prop}

theorem Gdev.Clipped.inside (h : dev.Clipped) {x y : Int} (hin : dev.clip.contains x y) :
    (0 ≤ x ∧ x < dev.width) ∧ 0 ≤ y ∧ y < dev.height := by
  obtain ⟨-, -, -, hlow, hhigh⟩ := h
  rw [Rect.contains_iff] at hin
  omega

-- A pixel of the device outside `Q` or outside the clip stays as it is.
theorem Law.same (hlaw : Law dev draw col Q) (h : dev.Clipped) {x y : Int}
    (hx : 0 ≤ x ∧ x < dev.width) (hno : ¬(Q x y ∧ dev.clip.contains x y)) (n : Nat) :
    (draw n).at x y = dev.at x y := by
  rw [Gdev.at, Gdev.at, hlaw.width]
  by_contra hne
  obtain ⟨x', y', hQ, hin, heq⟩ := hlaw.only n _ hne
  obtain ⟨rfl, rfl⟩ := row_of_address (h.inside hin).1 hx heq
  exact hno ⟨hQ, hin⟩

theorem leaves_iff {f : Nat → γ} {c : γ} (h : ∃ m, ∀ n ≥ m, f n = c) (c' : γ) :
    (∃ m, ∀ n ≥ m, f n = c') ↔ c = c' := by
  obtain ⟨m, hm⟩ := h
  constructor
  · rintro ⟨m', hm'⟩
    rw [← hm (max m m') (le_max_left _ _), hm' (max m m') (le_max_right _ _)]
  · rintro rfl
    exact ⟨m, hm⟩

open Classical in
theorem Law.leaves (hlaw : Law dev draw col Q) (h : dev.Clipped) {x y : Int}
    (hx : 0 ≤ x ∧ x < dev.width) (c : γ) :
    (∃ m, ∀ n ≥ m, (draw n).at x y = c) ↔
      (if Q x y ∧ dev.clip.contains x y then col else dev.at x y) = c := by
  split
  · rename_i hin
    obtain ⟨m, hm⟩ := hlaw.each x y hin.1 hin.2
    refine leaves_iff ⟨m, fun n hn => ?_⟩ c
    rw [Gdev.at, hlaw.width, hm n hn]
  · rename_i hno
    exact leaves_iff ⟨0, fun n _ => hlaw.same h hx hno n⟩ c

theorem setClip_none_clipped (h : dev.Clipped) : (setClip dev none).Clipped :=
  setClip_clipped h.width h.height fun _ hr => by cases hr

open Classical in
theorem clips_of_law {black : γ} {d : Drawing γ} (h : dev.Clipped)
    (hlaw : ∀ dev' : Gdev γ, dev'.Clipped → dev'.width = dev.width →
      (dev'.clip = dev.clip ∨ dev' = setClip dev none) →
        Law dev' (fun n => d.draw black n dev') col Q) : Clips black dev d := by
  have hunder := hlaw dev h rfl (.inl rfl)
  have hwhole := hlaw (setClip dev none) (setClip_none_clipped h) rfl (.inr rfl)
  constructor
  · intro n i hne
    obtain ⟨x, y, -, hin, heq⟩ := hunder.only n i hne
    obtain ⟨hx, hy⟩ := h.inside hin
    exact ⟨x, y, hx, hy, hin, heq⟩
  · intro x y hx hy c
    have hall : (setClip dev none).clip.contains x y := by
      rw [setClip, Rect.contains_iff]
      exact ⟨hx.1, hx.2, hy.1, hy.2⟩
    rw [Drawing.Leaves, hunder.leaves h hx c]
    by_cases hin : dev.clip.contains x y
    · rw [if_pos hin, Drawing.Leaves, hwhole.leaves (setClip_none_clipped h) hx c]
      have hboth : (Q x y ∧ dev.clip.contains x y) ↔
          (Q x y ∧ (setClip dev none).clip.contains x y) :=
        and_congr_right fun _ => ⟨fun _ => hall, fun _ => hin⟩
      rw [if_congr hboth rfl rfl]
      rfl
    · rw [if_neg hin, if_neg fun hboth => hin hboth.2]

end Part

section Laws

variable {black : γ} {dev : Gdev γ}

theorem drwPnt_law (x y : Int) :
    Law dev (fun _ => drwPnt black dev x y) black fun x' y' => x' = x ∧ y' = y := by
  rw [drwPnt]
  constructor
  · intro n
    split <;> rfl
  · intro n i hne
    split at hne
    · exact absurd rfl hne
    · by_cases hi : i = y * dev.width + x
      · refine ⟨x, y, ⟨rfl, rfl⟩, ?_, hi.symm⟩
        rw [Rect.contains_iff]
        omega
      · rw [Gdev.set_pixels, Function.update_of_ne hi] at hne
        exact absurd rfl hne
  · rintro _ _ ⟨rfl, rfl⟩ hin
    rw [Rect.contains_iff] at hin
    refine ⟨0, fun n _ => ?_⟩
    rw [if_neg (by omega), Gdev.set_pixels, Function.update_self]

theorem fillRows_only {left top : Int} {span : Nat} {col : γ} (rows : Nat) {i : Int}
    (hne : (fillRows dev left top span col rows).pixels i ≠ dev.pixels i) :
    ∃ x y, (left ≤ x ∧ x < left + span) ∧ (top ≤ y ∧ y < top + rows) ∧ y * dev.width + x = i := by
  induction rows with
  | zero => exact absurd rfl hne
  | succ rows ih =>
      have hlike := fillRows_like dev left top span col rows
      rw [fillRows, fillRow_pixels] at hne
      split at hne
      · rename_i hin
        rw [hlike.width] at hin
        exact ⟨i - (top + rows) * dev.width, top + rows, by omega, by omega, by omega⟩
      · obtain ⟨x, y, hx, hy, heq⟩ := ih hne
        exact ⟨x, y, hx, by omega, heq⟩

theorem fillRec_law (h : dev.Clipped) (r : Rect) (col : γ) :
    Law dev (fun _ => fillRec dev r col) col fun x y => r.contains x y := by
  obtain ⟨-, -, -, hlow, hhigh⟩ := h
  have hmax : ∀ a b : Int, (if a < b then b else a) = max a b := fun a b => by split <;> omega
  have hmin : ∀ a b : Int, (if a > b then b else a) = min a b := fun a b => by split <;> omega
  refine ⟨fun _ => (fillRec_like dev r col).width, fun _ i hne => ?_, fun x y hx hin => ⟨0, ?_⟩⟩
  · rw [fillRec] at hne
    simp only [hmax, hmin] at hne
    split at hne
    · exact absurd rfl hne
    · obtain ⟨x, y, hx, hy, heq⟩ := fillRows_only _ hne
      refine ⟨x, y, ?_, ?_, heq⟩ <;> rw [Rect.contains_iff] <;> omega
  · intro n _
    rw [Rect.contains_iff] at hx hin
    have hat : (fillRec dev r col).at x y = col := by
      rw [fillRec]
      simp only [hmax, hmin]
      rw [if_neg (by omega), fillRows_at _ (by omega) (by omega) (by omega), if_pos (by omega)]
    rw [Gdev.at, (fillRec_like dev r col).width] at hat
    exact hat

theorem slope_law {x1 y1 x2 y2 : Int} (hx : x1 ≠ x2) (hy : y1 ≠ y2) :
    Law dev (fun n => (drwLin black n dev x1 y1 x2 y2).1) black fun x y => ∃ k,
      (∀ m < k, ¬AtEnd x2 y2 ((lineStep x1 y1 x2 y2)^[m] (lineStart x1 y1 x2 y2))) ∧
        ((lineStep x1 y1 x2 y2)^[k] (lineStart x1 y1 x2 y2)).x = x ∧
          ((lineStep x1 y1 x2 y2)^[k] (lineStart x1 y1 x2 y2)).y = y := by
  have hdrawn : ∀ n, Drawn black dev (drwLin black n dev x1 y1 x2 y2).1 _ := fun n => by
    rw [drwLin_slope n dev hx hy]
    exact lineLoop_drawn (lineStep x1 y1 x2 y2) x2 y2 n dev (lineStart x1 y1 x2 y2)
  refine ⟨fun n => (hdrawn n).like.width, fun n i hne => ?_, ?_⟩
  · by_contra hno
    refine hne ((hdrawn n).off i ?_)
    rintro ⟨k, -, hbefore, hin, heq⟩
    exact hno ⟨_, _, ⟨k, hbefore, rfl, rfl⟩, hin, heq⟩
  · rintro x y ⟨k, hbefore, rfl, rfl⟩ hin
    exact ⟨k + 1, fun n hn => (hdrawn n).on _ ⟨k, by omega, hbefore, hin, rfl⟩⟩

-- With turns enough all the pixels of `L` are drawn, and never others.
theorem law_of_draws {r : Nat → Gdev γ × Bool} {Q : Int → Int → Prop}
    (hdraws : ∀ n, Draws black n dev (r n) fun i =>
      ∃ x y, Q x y ∧ dev.clip.contains x y ∧ y * dev.width + x = i) :
    Law dev (fun n => (r n).1) black Q := by
  constructor
  · intro n
    obtain ⟨P, hdrawn, -⟩ := (hdraws n).part
    exact hdrawn.like.width
  · intro n i hne
    obtain ⟨P, hdrawn, hsub, -⟩ := (hdraws n).part
    by_contra hno
    exact hne (hdrawn.off i fun hP => hno (hsub i hP))
  · intro x y hQ hin
    refine ⟨65537, fun n hn => ?_⟩
    obtain ⟨P, hdrawn, -, hall⟩ := (hdraws n).part
    exact hdrawn.on _ (hall (by omega) _ ⟨x, y, hQ, hin, rfl⟩)

end Laws

section Lines

variable {black : γ}

-- A call of `drw_lin` that takes a fast path
structure OnPath (l : Int × Int × Int × Int) : Prop where
  ends : EndsIsH l.1 l.2.1 l.2.2.1 l.2.2.2
  path : l.2.1 = l.2.2.2 ∨ l.1 = l.2.2.1

def Fits (clip : Rect) (l : Int × Int × Int × Int) : Prop :=
  PathFits clip l.1 l.2.1 l.2.2.1 l.2.2.2

def OnLine (l : Int × Int × Int × Int) (x y : Int) : Prop :=
  (x, y) ∈ linePoints l.1 l.2.1 l.2.2.1 l.2.2.2

theorem Draws.congr {n : Nat} {dev : Gdev γ} {r : Gdev γ × Bool} {L L' : Int → Prop}
    (h : Draws black n dev r L) (hL : ∀ i, L i ↔ L' i) : Draws black n dev r L' := by
  obtain ⟨P, hdrawn, hsub, hall⟩ := h.part
  exact ⟨⟨P, hdrawn, fun i hi => (hL i).mp (hsub i hi), fun hn i hi => hall hn i ((hL i).mpr hi)⟩,
    h.ends⟩

def ClipPixel (dev : Gdev γ) (Q : Int → Int → Prop) (i : Int) : Prop :=
  ∃ x y, Q x y ∧ dev.clip.contains x y ∧ y * dev.width + x = i

theorem drwLin_draws (n : Nat) {dev : Gdev γ} (hclip : dev.clip.AllH)
    {l : Int × Int × Int × Int} (hl : OnPath l) (hfit : Fits dev.clip l) :
    Draws black n dev (drwLin black n dev l.1 l.2.1 l.2.2.1 l.2.2.2)
      (ClipPixel dev (OnLine l)) := by
  have h : PathDraws black dev l.1 l.2.1 l.2.2.1 l.2.2.2 n :=
    path_draws hclip hl.ends hl.path hfit n
  refine h.congr fun i => ⟨?_, ?_⟩
  · rintro ⟨p, hp, hin, heq⟩
    exact ⟨p.1, p.2, hp, hin, heq⟩
  · rintro ⟨x, y, hp, hin, heq⟩
    exact ⟨(x, y), hp, hin, heq⟩

theorem drwLins_draws (n : Nat) {dev : Gdev γ} (hclip : dev.clip.AllH)
    (ls : List (Int × Int × Int × Int)) (hls : ∀ l ∈ ls, OnPath l)
    (hfit : ∀ l ∈ ls, Fits dev.clip l) :
    Draws black n dev (drwLins black n dev ls)
      (ClipPixel dev fun x y => ∃ l ∈ ls, OnLine l x y) := by
  induction ls generalizing dev with
  | nil =>
      refine ⟨⟨_, .none dev fun i => ?_, fun i hi => hi, fun _ i hi => hi⟩, fun _ => rfl⟩
      rintro ⟨x, y, ⟨l, hl, -⟩, -⟩
      cases hl
  | cons l ls ih =>
      have hfirst : Draws black n dev _ _ := drwLin_draws n hclip (hls l List.mem_cons_self)
        (hfit l List.mem_cons_self)
      obtain ⟨⟨P, hdrawn, hsub, hall⟩, hends⟩ := hfirst
      have hsome : ∀ i, ClipPixel dev (OnLine l) i →
          ClipPixel dev (fun x y => ∃ l' ∈ l :: ls, OnLine l' x y) i := by
        rintro i ⟨x, y, hQ, hin, heq⟩
        exact ⟨x, y, ⟨l, List.mem_cons_self, hQ⟩, hin, heq⟩
      rw [drwLins]
      split
      · have hlike := hdrawn.like
        have hrest := @ih (drwLin black n dev l.1 l.2.1 l.2.2.1 l.2.2.2).1
          (by rw [hlike.clip]; exact hclip) (fun l' hl' => hls l' (List.mem_cons_of_mem l hl'))
          fun l' hl' => by rw [hlike.clip]; exact hfit l' (List.mem_cons_of_mem l hl')
        obtain ⟨⟨P', hdrawn', hsub', hall'⟩, hends'⟩ := hrest
        simp only [ClipPixel, hlike.clip, hlike.width] at hsub' hall'
        refine ⟨⟨_, hdrawn.trans hdrawn', ?_, fun hn i hi => ?_⟩, hends'⟩
        · rintro i (hi | hi)
          · exact hsome i (hsub i hi)
          · obtain ⟨x, y, ⟨l', hl', hQ⟩, hin, heq⟩ := hsub' i hi
            exact ⟨x, y, ⟨l', List.mem_cons_of_mem l hl', hQ⟩, hin, heq⟩
        · obtain ⟨x, y, ⟨l', hl', hQ⟩, hin, heq⟩ := hi
          rcases List.mem_cons.mp hl' with rfl | hl'
          · exact .inl (hall hn i ⟨x, y, hQ, hin, heq⟩)
          · exact .inr (hall' hn i ⟨x, y, ⟨l', hl', hQ⟩, hin, heq⟩)
      · rename_i hno
        refine ⟨⟨P, hdrawn, fun i hi => hsome i (hsub i hi), fun hn => ?_⟩, fun hn => ?_⟩
        · exact absurd (hends hn) hno
        · exact absurd (hends hn) hno

theorem spanLoop_keeps (addr : Int → Int) (last : Int) (n : Nat) {dev : Gdev γ} {i : Int}
    (hi : dev.pixels i = black) (c : Int) :
    (spanLoop black addr last n dev c).1.pixels i = black := by
  induction n generalizing dev c with
  | zero => exact hi
  | succ n ih =>
      rw [spanLoop]
      split
      · refine ih ?_ _
        rw [Gdev.set_pixels]
        by_cases heq : i = addr c
        · rw [heq, Function.update_self]
        · rw [Function.update_of_ne heq, hi]
      · exact hi

-- The loop that never ends draws up to the greatest H.
theorem spanLoop_reaches (addr : Int → Int) (k : Nat) {n : Nat} (hn : k < n) (dev : Gdev γ)
    {c : Int} (hc : -32768 ≤ c) (hck : c + k = 32767) :
    (spanLoop black addr 32767 n dev c).1.pixels (addr 32767) = black := by
  induction k generalizing n dev c with
  | zero =>
      obtain rfl : c = 32767 := by omega
      obtain ⟨m, rfl⟩ : ∃ m, n = m + 1 := ⟨n - 1, by omega⟩
      rw [spanLoop, if_pos (Int.le_refl _)]
      refine spanLoop_keeps addr 32767 m ?_ _
      rw [Gdev.set_pixels, Function.update_self]
  | succ k ih =>
      obtain ⟨m, rfl⟩ : ∃ m, n = m + 1 := ⟨n - 1, by omega⟩
      rw [spanLoop, if_pos (by omega), asH_of_range (by omega)]
      exact ih (by omega) _ (by omega) (by omega)

theorem spanPath_reaches {addr : Int → Int} {low a b : Int} (ha : -32768 ≤ a ∧ a < 32768)
    (hb : -32768 ≤ b) (hlow : low < 32768) {n : Nat} (hn : 65536 < n) (dev : Gdev γ) :
    (spanPath black addr low (-32768) n dev a b).1.pixels (addr 32767) = black := by
  have hlast : (if max a b ≥ -32768 then asH (-32768 - 1) else max a b) = 32767 := by
    rw [if_pos (by omega)]
    decide
  rw [spanPath_eq]
  simp only [hlast]
  rw [if_neg (by omega)]
  exact spanLoop_reaches addr (32767 - max (min a b) low).toNat (by omega) dev (by omega) (by omega)

-- A call that does not end draws a pixel, and its clip has none.
theorem path_breaks {clip : Rect} (hclip : clip.AllH) (w : Int) {l : Int × Int × Int × Int}
    (hl : OnPath l) (hfit : ¬Fits clip l) :
    (∀ x y, ¬clip.contains x y) ∧ ∃ i, ∀ dev : Gdev γ, dev.clip = clip → dev.width = w →
      ∀ n > 65536, (drwLin black n dev l.1 l.2.1 l.2.2.1 l.2.2.2).1.pixels i = black := by
  obtain ⟨x1, y1, x2, y2⟩ := l
  obtain ⟨⟨hx1, hy1, hx2, hy2⟩, -⟩ := hl
  simp only [Fits, PathFits] at hfit hx1 hy1 hx2 hy2
  obtain ⟨hleft, htop, hright, hbottom⟩ := hclip
  by_cases hy : y1 = y2
  · subst hy
    have hbad : clip.right = -32768 ∧ clip.top ≤ y1 ∧ y1 < clip.bottom := by simpa using hfit
    refine ⟨fun x y hin => ?_, y1 * w + 32767, fun dev hc hw n hn => ?_⟩
    · rw [Rect.contains_iff] at hin
      omega
    · subst hc hw
      simp only
      rw [drwLin_row, if_neg (by omega), hbad.1]
      exact spanPath_reaches hx1 hx2.1 hleft.2 hn dev
  · obtain ⟨rfl, hbad⟩ : x1 = x2 ∧ clip.bottom = -32768 ∧ clip.left ≤ x1 ∧ x1 < clip.right := by
      simpa [hy] using hfit
    refine ⟨fun x y hin => ?_, 32767 * w + x1, fun dev hc hw n hn => ?_⟩
    · rw [Rect.contains_iff] at hin
      omega
    · subst hc hw
      simp only
      rw [drwLin_column n dev x1 hy, if_neg (by omega), hbad.1]
      exact spanPath_reaches hy1 hy2.1 htop.2 hn dev

theorem drwLins_breaks (black : γ) {clip : Rect} (hclip : clip.AllH) (w : Int)
    {ls : List (Int × Int × Int × Int)} (hls : ∀ l ∈ ls, OnPath l)
    (hfit : ¬∀ l ∈ ls, Fits clip l) :
    (∀ x y, ¬clip.contains x y) ∧ ∃ i, ∀ dev : Gdev γ, dev.clip = clip → dev.width = w →
      ∀ n > 65536, (drwLins black n dev ls).1.pixels i = black := by
  induction ls with
  | nil => exact absurd (fun l hl => by cases hl) hfit
  | cons l ls ih =>
      by_cases hl : Fits clip l
      · -- this line is drawn, and the next ones go on after it
        have hrest : ¬∀ l ∈ ls, Fits clip l := fun hall =>
          hfit (List.forall_mem_cons.mpr ⟨hl, hall⟩)
        obtain ⟨hempty, i, hi⟩ := ih (fun l' hl' => hls l' (List.mem_cons_of_mem l hl')) hrest
        refine ⟨hempty, i, fun dev hc hw n hn => ?_⟩
        have hdraws : Draws black n dev _ _ := drwLin_draws n (by rw [hc]; exact hclip)
          (hls l List.mem_cons_self) (by rw [hc]; exact hl)
        obtain ⟨⟨P, hdrawn, -⟩, hends⟩ := hdraws
        rw [drwLins, if_pos (hends hn)]
        exact hi _ (hdrawn.like.clip.trans hc) (hdrawn.like.width.trans hw) n hn
      · obtain ⟨hempty, i, hi⟩ := path_breaks hclip w (hls l List.mem_cons_self) hl
        refine ⟨hempty, i, fun dev hc hw n hn => ?_⟩
        have hnever : (drwLin black n dev l.1 l.2.1 l.2.2.1 l.2.2.2).2 = false :=
          path_never (by rw [hc]; exact hclip) (hls l List.mem_cons_self).ends
            (by rw [hc]; exact hl) n
        rw [drwLins, if_neg (by rw [hnever]; decide)]
        exact hi dev hc hw n hn

theorem recLines_onPath {r : Rect} (h : r.AllH) {l : Int × Int × Int × Int}
    (hl : l ∈ recLines r) : OnPath l := by
  obtain ⟨hleft, htop, hright, hbottom⟩ := h
  have hright' := asH_isH (r.right - 1)
  have hbottom' := asH_isH (r.bottom - 1)
  simp only [recLines, List.mem_cons, List.not_mem_nil, or_false] at hl
  obtain rfl | rfl | rfl | rfl := hl
  · exact ⟨⟨hleft, htop, hright', htop⟩, .inl rfl⟩
  · exact ⟨⟨hright', htop, hright', hbottom'⟩, .inr rfl⟩
  · exact ⟨⟨hleft, hbottom', hright', hbottom'⟩, .inl rfl⟩
  · exact ⟨⟨hleft, htop, hleft, hbottom'⟩, .inr rfl⟩

end Lines

-- A call that takes no fast path on a clip that ends at the least H
def Drawing.Fits (clip : Rect) : Drawing γ → Prop
  | .drwLin x1 y1 x2 y2 => PathFits clip x1 y1 x2 y2
  | .drwRec r => ∀ l ∈ recLines r, Graphics.Fits clip l
  | _ => True

section Clips

variable {black : γ} {dev : Gdev γ}

theorem clip_none_fits (h : dev.Clipped) (l : Int × Int × Int × Int) :
    Fits (setClip dev none).clip l := by
  obtain ⟨hw, hh, -⟩ := h
  simp only [Fits, PathFits, setClip]
  exact ⟨fun _ hbad => by omega, fun _ _ hbad => by omega⟩

theorem clips_of_lins (h : dev.Clipped) (ls : List (Int × Int × Int × Int))
    (hls : ∀ l ∈ ls, OnPath l) (hfit : ∀ l ∈ ls, Fits dev.clip l) {d : Drawing γ}
    (hd : ∀ n dev, d.draw black n dev = (drwLins black n dev ls).1) : Clips black dev d := by
  have hlaw : ∀ dev' : Gdev γ, dev'.Clipped → (dev'.clip = dev.clip ∨ dev' = setClip dev none) →
      Law dev' (fun n => d.draw black n dev') black fun x y => ∃ l ∈ ls, OnLine l x y := by
    intro dev' h' hclip
    have hfit' : ∀ l ∈ ls, Fits dev'.clip l := by
      intro l hl
      rcases hclip with hclip | rfl
      · rw [hclip]
        exact hfit l hl
      · exact clip_none_fits h l
    simp only [hd]
    exact law_of_draws fun n => drwLins_draws n h'.clip ls hls hfit'
  exact clips_of_law h fun dev' h' _ hclip => hlaw dev' h' hclip

theorem drwLin_draw (n : Nat) (dev : Gdev γ) (x1 y1 x2 y2 : Int) :
    (Drawing.drwLin x1 y1 x2 y2).draw black n dev =
      (drwLins black n dev [(x1, y1, x2, y2)]).1 := by
  rw [drwLins]
  split <;> rfl

theorem clips_of_fits (h : dev.Clipped) {d : Drawing γ} (hd : d.AllH) (hfit : d.Fits dev.clip) :
    Clips black dev d := by
  cases d with
  | drwPnt x y => exact clips_of_law h fun dev' _ _ _ => drwPnt_law x y
  | fillRec r col => exact clips_of_law h fun dev' h' _ _ => fillRec_law h' r col
  | drwRec r => exact clips_of_lins h _ (fun l => recLines_onPath hd) hfit fun _ _ => rfl
  | drwLin x1 y1 x2 y2 =>
      by_cases hpath : y1 = y2 ∨ x1 = x2
      · refine clips_of_lins h [(x1, y1, x2, y2)] ?_ ?_ fun n dev => ?_
        · exact List.forall_mem_singleton.mpr ⟨hd, hpath⟩
        · exact List.forall_mem_singleton.mpr hfit
        · exact drwLin_draw n dev x1 y1 x2 y2
      · obtain ⟨hy, hx⟩ := not_or.mp hpath
        exact clips_of_law h fun dev' _ _ _ => slope_law hx hy

-- On a device of one colour the pixel that is drawn outside the clip shows.
theorem not_clips_of_lins {white : γ} (hwhite : white ≠ black) (h : dev.Clipped)
    (hblank : ∀ i, dev.pixels i = white) (ls : List (Int × Int × Int × Int))
    (hls : ∀ l ∈ ls, OnPath l) (hfit : ¬∀ l ∈ ls, Fits dev.clip l) {d : Drawing γ}
    (hd : ∀ n dev, d.draw black n dev = (drwLins black n dev ls).1) : ¬Clips black dev d := by
  intro hclips
  obtain ⟨hempty, i, hi⟩ := drwLins_breaks black h.clip dev.width hls hfit
  have hblack := hi dev rfl rfl 65537 (by omega)
  rw [← hd] at hblack
  obtain ⟨x, y, -, -, hin, -⟩ := hclips.inside 65537 i (by
    rw [hblack, hblank]
    exact hwhite.symm)
  exact hempty x y hin

theorem fits_of_clips (white : γ) (hwhite : white ≠ black) (h : dev.Clipped)
    (hblank : ∀ i, dev.pixels i = white) {d : Drawing γ} (hd : d.AllH)
    (hclips : Clips black dev d) : d.Fits dev.clip := by
  by_contra hfit
  cases d with
  | drwPnt x y => exact hfit trivial
  | fillRec r col => exact hfit trivial
  | drwRec r =>
      exact not_clips_of_lins hwhite h hblank _ (fun l => recLines_onPath hd) hfit
        (fun _ _ => rfl) hclips
  | drwLin x1 y1 x2 y2 =>
      have hpath : y1 = y2 ∨ x1 = x2 := by
        by_contra hno
        obtain ⟨hy, hx⟩ := not_or.mp hno
        exact hfit ⟨fun heq => absurd heq hy, fun _ heq => absurd heq hx⟩
      refine not_clips_of_lins hwhite h hblank [(x1, y1, x2, y2)]
        (List.forall_mem_singleton.mpr ⟨hd, hpath⟩) (fun hall => hfit ?_) (fun n dev => ?_) hclips
      · exact hall _ (List.mem_singleton_self _)
      · exact drwLin_draw n dev x1 y1 x2 y2

-- After `set_clip` with any rectangle a call clips, whatever the pixels are, exactly when none of
-- its fast paths meets a clip that ends at the least H.
theorem setClip_clips_iff [Nontrivial γ] (hw : 0 < dev.width ∧ dev.width < 32768)
    (hh : 0 < dev.height ∧ dev.height < 32768) {clip : Option Rect} (hclip : ∀ r ∈ clip, r.AllH)
    {d : Drawing γ} (hd : d.AllH) :
    (∀ pixels, Clips black (setClip { dev with pixels := pixels } clip) d) ↔
      d.Fits (setClip dev clip).clip := by
  have hsame : ∀ pixels : Int → γ,
      (setClip { dev with pixels := pixels } clip).clip = (setClip dev clip).clip ∧
        (setClip { dev with pixels := pixels } clip).pixels = pixels := fun pixels => by
    cases clip <;> exact ⟨rfl, rfl⟩
  have hclipped : ∀ pixels : Int → γ, (setClip { dev with pixels := pixels } clip).Clipped :=
    fun pixels => @setClip_clipped γ { dev with pixels := pixels } hw hh clip hclip
  constructor
  · intro hall
    obtain ⟨white, hwhite⟩ := exists_ne black
    have hfit := fits_of_clips white hwhite (hclipped fun _ => white)
      (fun i => congrFun (hsame fun _ => white).2 i) hd (hall fun _ => white)
    rw [(hsame _).1] at hfit
    exact hfit
  · intro hfit pixels
    refine clips_of_fits (hclipped pixels) hd ?_
    rw [(hsame pixels).1]
    exact hfit

theorem setClip_clips_iff_small :
    (∀ pixels, Clips true (setClip { smallDev with pixels := pixels } (some ⟨10, 10, 20, 20⟩))
      (.drwRec ⟨5, 5, 15, 15⟩)) ↔
      (Drawing.drwRec ⟨5, 5, 15, 15⟩ : Drawing Bool).Fits
        (setClip smallDev (some ⟨10, 10, 20, 20⟩)).clip :=
  setClip_clips_iff ⟨by decide, by decide⟩ ⟨by decide, by decide⟩
    (fun _ hr => by
      obtain rfl := Option.some.inj hr
      exact ⟨by decide, by decide, by decide, by decide⟩)
    ⟨by decide, by decide, by decide, by decide⟩

-- A row of pixels with a clip that ends at the least H goes on to pixel 32767.
theorem drwLin_escapes : ¬Clips true (setClip smallDev (some ⟨0, 0, -32768, 100⟩))
    (.drwLin 0 0 1 0) := by
  intro hclips
  have hall : Rect.AllH ⟨0, 0, -32768, 100⟩ := ⟨by decide, by decide, by decide, by decide⟩
  have hclipped : (setClip smallDev (some ⟨0, 0, -32768, 100⟩)).Clipped :=
    setClip_clipped ⟨by decide, by decide⟩ ⟨by decide, by decide⟩
      fun _ hr => Option.some.inj hr ▸ hall
  have hends : EndsIsH 0 0 1 0 := ⟨by decide, by decide, by decide, by decide⟩
  have hfit := fits_of_clips (d := .drwLin 0 0 1 0) false (by decide) hclipped (fun _ => rfl) hends
    hclips
  exact hfit.1 rfl ⟨rfl, by decide, by decide⟩

end Clips

end BTron.Graphics
