import BTron.Window.Events
import BTron.Window.List

namespace BTron.Window

open Graphics

variable {γ : Type}

-- The areas `draw_retro_window_frame` fills, the body and then the tab, here in one colour: which
-- window painted a pixel last is seen when each one has its own.
def Wnd.drawFrame (dev : Gdev γ) (wnd : Wnd) (col : γ) : Gdev γ :=
  let body : Rect :=
    ⟨wnd.bounds.left, asH (wnd.bounds.top + wnd.titleH), wnd.bounds.right, wnd.bounds.bottom⟩
  let dev := fillRec dev body col
  if wnd.has WND_ATTR_TITLE then fillRec dev (wgetTabRect wnd) col else dev

-- `WND *stack[32]`, filled from the first window on.
def stackFrom (s : WndMgr) : Nat → Option Nat → Option (List Nat)
  | 0, _ => some []
  | _ + 1, none => some []
  | n + 1, some curr => do
    let wnd ← s.mem curr
    let stack ← stackFrom s n wnd.next
    some (curr :: stack)

-- The loop over the stack from its last window to its first, with what it does to a visible one.
def drawStack (s : WndMgr) (draw : Gdev γ → Nat → Wnd → Gdev γ) (dev : Gdev γ) :
    List Nat → Option (Gdev γ)
  | [] => some dev
  | p :: stack => do
    let dev ← drawStack s draw dev stack
    let wnd ← s.mem p
    some (if !wnd.visible then dev else draw dev p wnd)

-- The loop that puts a row of the client pixels on the screen, black ones with no alpha apart.
def compositeRow (screen dev : Gdev Color) (destX destY : Int) (cy : Nat) : Nat → Gdev Color
  | 0 => screen
  | cx + 1 =>
    let screen := compositeRow screen dev destX destY cy cx
    let px := asH (destX + cx)
    let py := asH (destY + cy)
    if px ≥ 0 ∧ px < screen.width ∧ py ≥ 0 ∧ py < screen.height ∧ dev.at cx cy ≠ 0 then
      screen.set (py * screen.width + px) (dev.at cx cy)
    else screen

def compositeRows (screen dev : Gdev Color) (destX destY : Int) : Nat → Gdev Color
  | 0 => screen
  | cy + 1 =>
    compositeRow (compositeRows screen dev destX destY cy) dev destX destY cy dev.width.toNat

-- The corner of the client area on the screen, as the loop has it.
def Wnd.destX (wnd : Wnd) : Int := asH (wnd.bounds.left + 4)

def Wnd.destY (wnd : Wnd) : Int := asH (wnd.bounds.top + wnd.titleH + 4)

def Wnd.composite (screen : Gdev Color) (wnd : Wnd) (dev : Gdev Color) : Gdev Color :=
  compositeRows screen dev wnd.destX wnd.destY dev.height.toNat

def redrawAllWindows (s : WndMgr) (draw : Gdev γ → Nat → Wnd → Gdev γ) (dev : Gdev γ) :
    Option (Gdev γ) := do
  let stack ← stackFrom s 32 s.head
  drawStack s draw dev stack

-- The frame fills (x, y), with the body or with the tab.
def Wnd.covers (wnd : Wnd) (x y : Int) : Bool :=
  (Rect.contains ⟨wnd.bounds.left, asH (wnd.bounds.top + wnd.titleH), wnd.bounds.right,
    wnd.bounds.bottom⟩ x y) || whitTestTab wnd x y

-- A window is visible and covers the pixel, and `find_wnd_at` takes it for hit.
def WndMgr.covered (s : WndMgr) (x y : Int) (p : Nat) : Bool :=
  (s.mem p).any fun wnd => wnd.visible && wnd.covers x y

def WndMgr.hits (s : WndMgr) (x y : Int) (p : Nat) : Bool := (s.mem p).any (Wnd.hit · x y)

theorem whitTestTab_eq (wnd : Wnd) (x y : Int) :
    whitTestTab wnd x y = (wnd.has WND_ATTR_TITLE && (wgetTabRect wnd).contains x y) := by
  rw [whitTestTab]
  simp only [Rect.contains, Bool.and_assoc]

theorem drawFrame_like (dev : Gdev γ) (wnd : Wnd) (col : γ) : dev.Like (wnd.drawFrame dev col) := by
  rw [Wnd.drawFrame]
  split
  · exact (fillRec_like dev _ col).trans (fillRec_like _ _ col)
  · exact fillRec_like dev _ col

theorem drawFrame_at {dev : Gdev γ} (h : dev.Whole) (wnd : Wnd) (col : γ) {x y : Int}
    (hx : 0 ≤ x ∧ x < dev.width) (hy : 0 ≤ y ∧ y < dev.height) :
    (wnd.drawFrame dev col).at x y = if wnd.covers x y then col else dev.at x y := by
  rw [Wnd.drawFrame, Wnd.covers, whitTestTab_eq]
  split
  · rename_i htitle
    have hlike := fillRec_like dev ⟨wnd.bounds.left, asH (wnd.bounds.top + wnd.titleH),
      wnd.bounds.right, wnd.bounds.bottom⟩ col
    rw [fillRec_at (h.like hlike) _ col (by rwa [hlike.width]) (by rwa [hlike.height]),
      fillRec_at h _ col hx hy, htitle]
    cases (wgetTabRect wnd).contains x y <;> simp
  · rename_i htitle
    rw [fillRec_at h _ col hx hy]
    simp [htitle]

theorem stackFrom_spec {s : WndMgr} {before : Option Nat} {ps : List Nat} (n : Nat)
    (hlinks : Lib.Linked s.next s.prev before ps none) (hlive : ∀ z ∈ ps, s.mem z ≠ none) :
    stackFrom s n ps.head? = some (ps.take n) := by
  induction ps generalizing before n with
  | nil => cases n <;> rfl
  | cons p ps ih =>
      cases n with
      | zero => rfl
      | succ n =>
          rw [List.forall_mem_cons] at hlive
          obtain ⟨hprev, hnext, htail⟩ := hlinks
          obtain ⟨v, hv⟩ := Option.ne_none_iff_exists'.mp hlive.1
          have hvnext : v.next = ps.head? := by
            rw [WndMgr.next, hv, Option.bind_some, Option.or_none] at hnext
            exact hnext
          rw [List.head?_cons, stackFrom]
          simp only [hv, hvnext, ih n htail hlive.2, Option.bind_eq_bind, Option.bind_some,
            List.take_succ_cons]

-- The front-most window of the stack that covers a pixel is the one that painted it last.
theorem drawStack_spec {s : WndMgr} {screen : Gdev (Option Nat)} {stack : List Nat} {x y : Int}
    (h : screen.Whole) (hlive : ∀ z ∈ stack, s.mem z ≠ none) (hx : 0 ≤ x ∧ x < screen.width)
    (hy : 0 ≤ y ∧ y < screen.height) :
    ∃ dev, drawStack s (fun dev p wnd => wnd.drawFrame dev (some p)) screen stack = some dev ∧
      screen.Like dev ∧ dev.at x y = (stack.find? (s.covered x y)).or (screen.at x y) := by
  induction stack with
  | nil => exact ⟨screen, rfl, .refl screen, rfl⟩
  | cons p stack ih =>
      rw [List.forall_mem_cons] at hlive
      obtain ⟨dev, hdev, hlike, hat⟩ := ih hlive.2
      obtain ⟨v, hv⟩ := Option.ne_none_iff_exists'.mp hlive.1
      rw [drawStack]
      simp only [hdev, hv, Option.bind_eq_bind, Option.bind_some]
      refine ⟨_, rfl, ?_, ?_⟩
      · cases v.visible
        · exact hlike
        · exact hlike.trans (drawFrame_like dev v (some p))
      · have hcovered : s.covered x y p = (v.visible && v.covers x y) := by
          rw [WndMgr.covered, hv, Option.any_some]
        rw [List.find?_cons, hcovered]
        cases v.visible
        · exact hat
        · simp only [Bool.not_true, Bool.false_eq_true, if_false, Bool.true_and]
          rw [drawFrame_at (h.like hlike) v (some p) (by rwa [hlike.width])
            (by rwa [hlike.height])]
          cases v.covers x y
          · exact hat
          · rfl

theorem redraw_spec {s : WndMgr} {ps : List Nat} {w ht : Int} {screen : Gdev (Option Nat)}
    {x y : Int} (h : Represents s ps) (hscreen : opnDev w ht none = some screen)
    (hx : 0 ≤ x ∧ x < w) (hy : 0 ≤ y ∧ y < ht) :
    (redrawAllWindows s (fun dev p wnd => wnd.drawFrame dev (some p)) screen).map (·.at x y) =
      some ((ps.take 32).find? (s.covered x y)) := by
  have hsize : screen.width = w ∧ screen.height = ht ∧ screen.at x y = none := by
    rw [opnDev] at hscreen
    split at hscreen
    · cases hscreen
    · cases hscreen
      exact ⟨rfl, rfl, rfl⟩
  obtain ⟨hwidth, hheight, hblank⟩ := hsize
  have hlive : ∀ z ∈ ps.take 32, s.mem z ≠ none := fun z hz =>
    h.all_live z (List.mem_of_mem_take hz)
  obtain ⟨dev, hdev, -, hat⟩ := drawStack_spec (opnDev_whole hscreen) hlive (by rwa [hwidth])
    (by rwa [hheight])
  rw [redrawAllWindows, h.head, stackFrom_spec 32 h.links h.all_live]
  simp only [Option.bind_eq_bind, Option.bind_some, hdev, Option.map_some, hat, hblank,
    Option.or_none]

theorem findFrom_spec {s : WndMgr} {before : Option Nat} {ps : List Nat} {x y : Int} {fuel : Nat}
    (hlinks : Lib.Linked s.next s.prev before ps none) (hlive : ∀ z ∈ ps, s.mem z ≠ none)
    (hfuel : ps.length < fuel) :
    findFrom s x y fuel ps.head? = some (ps.find? (s.hits x y)) := by
  induction ps generalizing before fuel with
  | nil =>
      obtain ⟨n, rfl⟩ := Nat.exists_eq_add_of_lt hfuel
      simp [findFrom]
  | cons p ps ih =>
      obtain ⟨n, rfl⟩ := Nat.exists_eq_add_of_lt hfuel
      rw [List.forall_mem_cons] at hlive
      obtain ⟨hprev, hnext, htail⟩ := hlinks
      obtain ⟨v, hv⟩ := Option.ne_none_iff_exists'.mp hlive.1
      have hvnext : v.next = ps.head? := by
        rw [WndMgr.next, hv, Option.bind_some, Option.or_none] at hnext
        exact hnext
      have hhits : s.hits x y p = v.hit x y := by rw [WndMgr.hits, hv, Option.any_some]
      rw [List.head?_cons, findFrom, hv, Option.bind_some, List.find?_cons, hhits, hvnext]
      cases v.hit x y
      · exact ih htail hlive.2 (by rw [List.length_cons]; omega)
      · rfl

theorem find_spec {s : WndMgr} {ps : List Nat} (h : Represents s ps) (x y : Int) :
    findWndAt s x y = some (ps.find? (s.hits x y)) := by
  rw [findWndAt, h.head]
  exact findFrom_spec h.links h.all_live (by rw [h.count]; omega)

-- The first member with a property and the first of the first `n` with a stronger one.
theorem find_take_iff {α : Type} {C H : α → Bool} {ps : List α} {n : Nat} (hnd : ps.Nodup)
    (hstrong : ∀ p ∈ ps, C p → H p) :
    ps.find? H = (ps.take n).find? C ↔
      ∀ pre p post, ps = pre ++ p :: post → H p → (∀ q ∈ pre, ¬H q) → pre.length < n ∧ C p := by
  constructor
  · rintro heq pre p post rfl hp hpre
    have hfind : (pre ++ p :: post).find? H = some p :=
      List.find?_eq_some_iff_append.mpr ⟨hp, pre, post, rfl, by simpa using hpre⟩
    rw [hfind] at heq
    refine ⟨?_, List.find?_some heq.symm⟩
    by_contra hlong
    have hmem := List.mem_of_find?_eq_some heq.symm
    rw [List.take_append_of_le_length (Nat.le_of_not_lt hlong)] at hmem
    exact (List.nodup_append.mp hnd).2.2 p (List.mem_of_mem_take hmem) p List.mem_cons_self rfl
  · intro hall
    cases hfind : ps.find? H with
    | none =>
        rw [List.find?_eq_none] at hfind
        refine (List.find?_eq_none.mpr fun p hp hC => ?_).symm
        have hmem := List.mem_of_mem_take hp
        exact hfind p hmem (hstrong p hmem hC)
    | some p =>
        obtain ⟨hp, pre, post, rfl, hpre⟩ := List.find?_eq_some_iff_append.mp hfind
        have hpre' : ∀ q ∈ pre, ¬H q := by simpa using hpre
        obtain ⟨hlen, hC⟩ := hall pre p post rfl hp hpre'
        obtain ⟨k, rfl⟩ := Nat.exists_eq_add_of_lt hlen
        rw [show pre.length + k + 1 = pre.length + (k + 1) by omega, List.take_length_add_append,
          List.take_succ_cons]
        refine (List.find?_eq_some_iff_append.mpr ⟨hC, pre, _, rfl, fun q hq => ?_⟩).symm
        rw [Bool.not_eq_true', Bool.eq_false_iff]
        exact fun hCq => hpre' q hq (hstrong q (by simp [hq]) hCq)

theorem set_at {screen : Gdev γ} {px py x y : Int} {col : γ} (hpx : 0 ≤ px ∧ px < screen.width)
    (hx : 0 ≤ x ∧ x < screen.width) :
    (screen.set (py * screen.width + px) col).at x y =
      if x = px ∧ y = py then col else screen.at x y := by
  show Function.update screen.pixels _ col (y * screen.width + x) = _
  by_cases hsame : x = px ∧ y = py
  · rw [if_pos hsame, hsame.1, hsame.2, Function.update_self]
  · rw [if_neg hsame, Function.update_of_ne]
    · rfl
    · exact fun haddr => hsame (row_of_address hx hpx haddr)

theorem compositeRow_like (screen dev : Gdev Color) (destX destY : Int) (cy n : Nat) :
    screen.Like (compositeRow screen dev destX destY cy n) := by
  induction n with
  | zero => exact .refl screen
  | succ n ih =>
      rw [compositeRow]
      apply iteInduction
      · exact fun _ => ih.trans ⟨rfl, rfl, rfl⟩
      · exact fun _ => ih

-- In a row each client pixel goes to a place of its own.
theorem compositeRow_at {screen dev : Gdev Color} {destX destY : Int} {cy n : Nat}
    (hn : n ≤ 65536) {x y : Int} (hx : 0 ≤ x ∧ x < screen.width)
    (hy : 0 ≤ y ∧ y < screen.height) :
    (∀ cx < n, asH (destX + cx) = x → asH (destY + cy) = y → dev.at cx cy ≠ 0 →
      (compositeRow screen dev destX destY cy n).at x y = dev.at cx cy) ∧
    ((∀ cx < n, ¬(asH (destX + cx) = x ∧ asH (destY + cy) = y)) →
      (compositeRow screen dev destX destY cy n).at x y = screen.at x y) := by
  induction n with
  | zero => exact ⟨fun cx hcx => absurd hcx (Nat.not_lt_zero cx), fun _ => rfl⟩
  | succ n ih =>
      obtain ⟨hput, hkeep⟩ := ih (by omega)
      have hlike := compositeRow_like screen dev destX destY cy n
      have hother : ∀ cx < n, asH (destX + cx) = x → x ≠ asH (destX + n) := by
        intro cx hcx hpx heq
        have hsame := asH_inj (hpx.trans heq) (by omega) (by omega)
        omega
      rw [compositeRow]
      split
      · rename_i hon
        rw [set_at ⟨hon.1, hon.2.1⟩ (by rwa [hlike.width])]
        constructor
        · intro cx hcx hpx hpy hcol
          by_cases hlast : cx = n
          · rw [if_pos ⟨by rw [← hpx, hlast], hpy.symm⟩, hlast]
          · rw [if_neg fun h => hother cx (by omega) hpx h.1]
            exact hput cx (by omega) hpx hpy hcol
        · intro hnone
          rw [if_neg fun h => hnone n (by omega) ⟨h.1.symm, h.2.symm⟩]
          exact hkeep fun cx hcx => hnone cx (by omega)
      · rename_i hoff
        constructor
        · intro cx hcx hpx hpy hcol
          by_cases hlast : cx = n
          · rw [hlast] at hpx hcol
            rw [hpx, hpy, hlike.width, hlike.height] at hoff
            exact absurd ⟨hx.1, hx.2, hy.1, hy.2, hcol⟩ hoff
          · exact hput cx (by omega) hpx hpy hcol
        · exact fun hnone => hkeep fun cx hcx => hnone cx (by omega)

theorem compositeRows_like (screen dev : Gdev Color) (destX destY : Int) (n : Nat) :
    screen.Like (compositeRows screen dev destX destY n) := by
  induction n with
  | zero => exact .refl screen
  | succ n ih => exact ih.trans (compositeRow_like _ dev destX destY n _)

theorem compositeRows_at {screen dev : Gdev Color} {destX destY : Int} {n : Nat} (hn : n ≤ 65536)
    (hwidth : dev.width ≤ 65536) {cx cy : Nat} (hcx : cx < dev.width.toNat) (hcy : cy < n)
    (hx : 0 ≤ asH (destX + cx) ∧ asH (destX + cx) < screen.width)
    (hy : 0 ≤ asH (destY + cy) ∧ asH (destY + cy) < screen.height) (hcol : dev.at cx cy ≠ 0) :
    (compositeRows screen dev destX destY n).at (asH (destX + cx)) (asH (destY + cy)) =
      dev.at cx cy := by
  induction n with
  | zero => exact absurd hcy (Nat.not_lt_zero cy)
  | succ n ih =>
      have hlike := compositeRows_like screen dev destX destY n
      rw [← hlike.width] at hx
      rw [← hlike.height] at hy
      obtain ⟨hput, hkeep⟩ :=
        @compositeRow_at _ dev destX destY n dev.width.toNat (by omega) _ _ hx hy
      rw [compositeRows]
      by_cases hlast : cy = n
      · subst hlast
        exact hput cx hcx rfl rfl hcol
      · rw [hkeep]
        · rw [hlike.width] at hx
          rw [hlike.height] at hy
          exact ih (by omega) (by omega)
        · rintro cx' - ⟨-, hpy⟩
          have hsame := asH_inj hpy (by omega) (by omega)
          omega

-- `bounds.top + title_h` is an H.
def Wnd.TopInRange (wnd : Wnd) : Prop :=
  -32768 ≤ wnd.bounds.top + wnd.titleH ∧ wnd.bounds.top + wnd.titleH < 32768

theorem hit_iff (wnd : Wnd) (x y : Int) :
    wnd.hit x y ↔ wnd.visible ∧
      ((wnd.bounds.left ≤ x ∧ x ≤ wnd.bounds.right ∧ wnd.bounds.top + wnd.titleH ≤ y ∧
        y ≤ wnd.bounds.bottom) ∨ whitTestTab wnd x y) := by
  have htitle : whitTestTab wnd x y → wnd.has WND_ATTR_TITLE := by
    rw [whitTestTab_eq, Bool.and_eq_true]
    exact And.left
  simp only [Wnd.hit, Bool.and_eq_true, Bool.or_eq_true, decide_eq_true_eq, and_assoc]
  constructor
  · rintro ⟨hvisible, hbody | htab⟩
    · exact ⟨hvisible, .inl hbody⟩
    · exact ⟨hvisible, .inr htab.2⟩
  · rintro ⟨hvisible, hbody | htab⟩
    · exact ⟨hvisible, .inl hbody⟩
    · exact ⟨hvisible, .inr ⟨htitle htab, htab⟩⟩

theorem covers_iff {wnd : Wnd} (htop : wnd.TopInRange) (x y : Int) :
    wnd.covers x y ↔ (wnd.bounds.left ≤ x ∧ x < wnd.bounds.right ∧
      wnd.bounds.top + wnd.titleH ≤ y ∧ y < wnd.bounds.bottom) ∨ whitTestTab wnd x y := by
  rw [Wnd.covers, asH_of_range htop]
  simp only [Rect.contains, Bool.and_eq_true, Bool.or_eq_true, decide_eq_true_eq, and_assoc]

theorem hits_of_covered {s : WndMgr} {x y : Int} {p : Nat}
    (htop : ∀ wnd, s.mem p = some wnd → wnd.TopInRange) (h : s.covered x y p) : s.hits x y p := by
  rw [WndMgr.covered, Option.any_eq_true] at h
  obtain ⟨wnd, hwnd, h⟩ := h
  rw [Bool.and_eq_true, covers_iff (htop wnd hwnd)] at h
  rw [WndMgr.hits, hwnd, Option.any_some, hit_iff]
  obtain ⟨hvisible, hbody | htab⟩ := h
  · exact ⟨hvisible, .inl (by omega)⟩
  · exact ⟨hvisible, .inr htab⟩

-- A window that is hit is drawn at (x, y) but on the last column and row of its body.
theorem covered_iff_of_hit {s : WndMgr} {wnd : Wnd} {x y : Int} {p : Nat} (htop : wnd.TopInRange)
    (hwnd : s.mem p = some wnd) (hhit : wnd.hit x y) :
    s.covered x y p ↔
      whitTestTab wnd x y ∨ x ≠ wnd.bounds.right ∧ y ≠ wnd.bounds.bottom := by
  rw [WndMgr.covered, hwnd, Option.any_some, Bool.and_eq_true, covers_iff htop]
  obtain ⟨hvisible, hbody | htab⟩ := (hit_iff wnd x y).mp hhit
  · constructor
    · rintro ⟨-, hinside | htab⟩
      · exact .inr (by omega)
      · exact .inl htab
    · rintro (htab | hedge)
      · exact ⟨hvisible, .inr htab⟩
      · exact ⟨hvisible, .inl (by omega)⟩
  · exact iff_of_true ⟨hvisible, .inr htab⟩ (.inl htab)

-- `find_wnd_at` gives the window that was painted last at (x, y), and none when none is there.
def HitIsPainted (s : WndMgr) (screen : Gdev (Option Nat)) (x y : Int) : Prop :=
  findWndAt s x y =
      (redrawAllWindows s (fun dev p wnd => wnd.drawFrame dev (some p)) screen).map (·.at x y) ∧
    (findWndAt s x y = some none ↔ ∀ p, ¬s.covered x y p)

-- The window that is hit first is painted, and not on an edge of its body that is not.
def HitInside (s : WndMgr) (ps : List Nat) (x y : Int) : Prop :=
  ∀ pre p post wnd, ps = pre ++ p :: post → s.mem p = some wnd → wnd.hit x y →
    (∀ q ∈ pre, ∀ other, s.mem q = some other → ¬other.hit x y) →
      pre.length < 32 ∧ (whitTestTab wnd x y ∨ x ≠ wnd.bounds.right ∧ y ≠ wnd.bounds.bottom)

theorem not_hits_iff {s : WndMgr} {x y : Int} {q : Nat} :
    ¬s.hits x y q ↔ ∀ other, s.mem q = some other → ¬other.hit x y := by
  rw [WndMgr.hits]
  cases s.mem q <;> simp

theorem hitInside_iff {s : WndMgr} {ps : List Nat} {x y : Int} (h : Represents s ps)
    (htop : ∀ p wnd, s.mem p = some wnd → wnd.TopInRange) :
    HitInside s ps x y ↔ ∀ pre p post, ps = pre ++ p :: post → s.hits x y p →
      (∀ q ∈ pre, ¬s.hits x y q) → pre.length < 32 ∧ s.covered x y p := by
  constructor
  · intro hinside pre p post hps hhits hpre
    obtain ⟨wnd, hwnd⟩ := Option.ne_none_iff_exists'.mp (h.all_live p (by simp [hps]))
    rw [WndMgr.hits, hwnd, Option.any_some] at hhits
    rw [covered_iff_of_hit (htop p wnd hwnd) hwnd hhits]
    exact hinside pre p post wnd hps hwnd hhits fun q hq => not_hits_iff.mp (hpre q hq)
  · intro hall pre p post wnd hps hwnd hhit hpre
    rw [← covered_iff_of_hit (htop p wnd hwnd) hwnd hhit]
    apply hall pre p post hps
    · rwa [WndMgr.hits, hwnd, Option.any_some]
    · exact fun q hq => not_hits_iff.mpr (hpre q hq)

-- One window is opened, of 300 by 200.
def oneOpened : Option WndMgr :=
  exec (.init 1) (.opn (some 100) none 100 100 300 200 WND_ATTR_TITLE true)

theorem oneOpened_view :
    oneOpened.map (fun s => (s.mem 100).map fun wnd =>
      (wnd.bounds, wnd.titleH, wnd.hit 400 200, wnd.visible && wnd.covers 400 200)) =
      some (some (⟨100, 100, 400, 300⟩, 28, true, false)) := by
  decide +kernel

theorem oneOpened_spec : ∃ s wnd, oneOpened = some s ∧ Represents s [100] ∧ s.mem 100 = some wnd ∧
    wnd.bounds = ⟨100, 100, 400, 300⟩ ∧ wnd.hit 400 200 ∧ ¬s.covered 400 200 100 ∧
    ∀ p other, s.mem p = some other → other.TopInRange := by
  obtain ⟨s, hs, hview⟩ := Option.map_eq_some_iff.mp oneOpened_view
  obtain ⟨wnd, hwnd, heq⟩ := Option.map_eq_some_iff.mp hview
  simp only [Prod.mk.injEq] at heq
  obtain ⟨hbounds, htitle, hhit, hcovers⟩ := heq
  have hlegal : (Act.opn (some 100) none 100 100 300 200 WND_ATTR_TITLE true).Legal (.init 1) :=
    fun _ _ => rfl
  have h : Represents s [100] := step_spec (represents_init 1) ⟨hlegal, hs⟩
  refine ⟨s, wnd, hs, h, hwnd, hbounds, hhit, ?_, fun p other hother => ?_⟩
  · rw [WndMgr.covered, hwnd, Option.any_some, hcovers]
    exact Bool.false_ne_true
  · have hp : p ∈ [100] := (h.live p).mp (by simp [hother])
    obtain rfl := List.mem_singleton.mp hp
    obtain rfl := Option.some.inj (hwnd.symm.trans hother)
    rw [Wnd.TopInRange, hbounds, htitle]
    decide

end BTron.Window
