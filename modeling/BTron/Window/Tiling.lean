import BTron.Window.Focus
import BTron.Window.Geometry
import BTron.Window.List
import Mathlib.Tactic.Linarith

namespace BTron.Window

open Lib Graphics

-- How many of the windows are shown.
def shown (s : WndMgr) (ps : List Nat) : Nat :=
  ps.countP fun p => (s.mem p).any Wnd.visible

section Walk

variable {s s' : WndMgr} {ps pre post : List Nat} {z : Nat}

theorem shown_cons (s : WndMgr) (p : Nat) (ps : List Nat) {v : Wnd} (hv : s.mem p = some v) :
    shown s (p :: ps) = if v.visible then shown s ps + 1 else shown s ps := by
  rw [shown, List.countP_cons, hv, Option.any_some]
  split <;> rfl

theorem countVisible_from {before : Option Nat} {fuel : Nat}
    (hlinks : Linked s.next s.prev before ps none) (hlive : ∀ p ∈ ps, s.mem p ≠ none)
    (hfuel : ps.length < fuel) : countVisible s fuel ps.head? = some (shown s ps) := by
  induction ps generalizing before fuel with
  | nil =>
      obtain ⟨n, rfl⟩ := Nat.exists_eq_add_of_lt hfuel
      simp [countVisible, shown]
  | cons c rest ih =>
      obtain ⟨n, rfl⟩ : ∃ n, fuel = n + 1 := ⟨fuel - 1, by omega⟩
      obtain ⟨-, hnext, hrest⟩ := hlinks
      obtain ⟨v, hv⟩ := Option.ne_none_iff_exists'.mp (hlive c List.mem_cons_self)
      have hvnext : v.next = rest.head? := by
        rw [← Option.or_none (o := rest.head?), ← hnext, WndMgr.next, hv]
        rfl
      rw [List.length_cons] at hfuel
      rw [List.head?_cons, countVisible, hv, Option.bind_some, hvnext,
        ih hrest (fun p hp => hlive p (List.mem_cons_of_mem c hp)) (by omega),
        shown_cons s c rest hv]
      rfl

-- The loops change the windows one by one, and the ones that follow are as they were.
theorem eachWnd_index {f : Nat → Wnd → Wnd} (hnext : ∀ i v, (f i v).next = v.next)
    (hprev : ∀ i v, (f i v).prev = v.prev) {before : Option Nat} (idx : Nat) {fuel : Nat}
    (hlinks : Linked s.next s.prev before ps none) (hlive : ∀ p ∈ ps, s.mem p ≠ none)
    (hnd : ps.Nodup) (hfuel : ps.length < fuel) :
    ∃ s', eachWnd f fuel s idx ps.head? = some s' ∧ (∀ z ∉ ps, s'.mem z = s.mem z) ∧
      ∀ pre z post, ps = pre ++ z :: post →
        s'.mem z = (s.mem z).map (f (idx + shown s pre)) := by
  induction ps generalizing s before idx fuel with
  | nil =>
      obtain ⟨n, rfl⟩ := Nat.exists_eq_add_of_lt hfuel
      refine ⟨s, by simp [eachWnd], fun _ _ => rfl, fun pre z post heq => ?_⟩
      simp at heq
  | cons c rest ih =>
      obtain ⟨n, rfl⟩ : ∃ n, fuel = n + 1 := ⟨fuel - 1, by omega⟩
      obtain ⟨-, hlink, hrest⟩ := hlinks
      obtain ⟨hc, hnd'⟩ := List.nodup_cons.mp hnd
      obtain ⟨v, hv⟩ := Option.ne_none_iff_exists'.mp (hlive c List.mem_cons_self)
      have hvnext : v.next = rest.head? := by
        rw [← Option.or_none (o := rest.head?), ← hlink, WndMgr.next, hv]
        rfl
      -- the write at c
      have hwrite : s.write c (f idx) = some (s.put (some c) (f idx)) :=
        WndMgr.write_of_live _ (by simp [hv])
      have hput : (s.put (some c) (f idx)).mem c = some (f idx v) := by
        rw [WndMgr.put_mem, if_pos rfl, hv, Option.map_some]
      have hother : ∀ p, p ≠ c → (s.put (some c) (f idx)).mem p = s.mem p := fun p hp =>
        WndMgr.put_mem_of_ne fun heq => hp (Option.some.inj heq)
      have hne : ∀ p ∈ rest, p ≠ c := by
        rintro p hp rfl
        exact hc hp
      have hrest' : Linked (s.put (some c) (f idx)).next (s.put (some c) (f idx)).prev (some c)
          rest none := by
        rw [WndMgr.put_next (hnext idx), WndMgr.put_prev (hprev idx)]
        exact hrest
      rw [List.length_cons] at hfuel
      obtain ⟨s', hs', hsame, hmem⟩ := @ih (s.put (some c) (f idx)) (some c)
        (if v.visible then idx + 1 else idx) n hrest'
        (fun p hp => by
          rw [hother p (hne p hp)]
          exact hlive p (List.mem_cons_of_mem c hp)) hnd' (by omega)
      refine ⟨s', ?_, fun z hz => ?_, fun pre z post heq => ?_⟩
      · rw [List.head?_cons, eachWnd, hv]
        simp only [Option.bind_eq_bind, Option.bind_some, hwrite, hput, hnext, hvnext]
        exact hs'
      · rw [List.mem_cons, not_or] at hz
        rw [hsame z hz.2, hother z hz.1]
      · cases pre with
        | nil =>
            obtain ⟨rfl, rfl⟩ := List.cons.inj heq
            rw [hsame c hc, hput, hv, shown, List.countP_nil, Nat.add_zero, Option.map_some]
        | cons q pre =>
            obtain ⟨rfl, rfl⟩ := List.cons.inj heq
            have hpre : shown (s.put (some c) (f idx)) pre = shown s pre :=
              List.countP_congr fun p hp => by
                rw [hother p (hne p (List.mem_append_left _ hp))]
            rw [hmem pre z post rfl, hother z (hne z (by simp)), hpre, shown_cons s c pre hv]
            congr 2
            split <;> omega

-- Every number below that of the windows shown is the number of one of them.
theorem shown_place {i : Nat} (hlive : ∀ p ∈ ps, s.mem p ≠ none) (hi : i < shown s ps) :
    ∃ pre z post v, ps = pre ++ z :: post ∧ s.mem z = some v ∧ v.visible ∧ shown s pre = i := by
  induction ps generalizing i with
  | nil => simp [shown] at hi
  | cons c rest ih =>
      obtain ⟨v, hv⟩ := Option.ne_none_iff_exists'.mp (hlive c List.mem_cons_self)
      have hrest : ∀ p ∈ rest, s.mem p ≠ none := fun p hp => hlive p (List.mem_cons_of_mem c hp)
      rw [shown_cons s c rest hv] at hi
      by_cases hvis : v.visible
      · rw [if_pos hvis] at hi
        cases i with
        | zero => exact ⟨[], c, rest, v, rfl, hv, hvis, rfl⟩
        | succ i =>
            obtain ⟨pre, z, post, w, rfl, hz, hw, hpre⟩ := ih hrest (Nat.lt_of_succ_lt_succ hi)
            refine ⟨c :: pre, z, post, w, rfl, hz, hw, ?_⟩
            rw [shown_cons s c pre hv, if_pos hvis, hpre]
      · rw [if_neg hvis] at hi
        obtain ⟨pre, z, post, w, rfl, hz, hw, hpre⟩ := ih hrest hi
        refine ⟨c :: pre, z, post, w, rfl, hz, hw, ?_⟩
        rw [shown_cons s c pre hv, if_neg hvis, hpre]

-- A window that is shown comes before the number of all, and before that of the next one.
theorem shown_lt {v : Wnd} (hv : s.mem z = some v) (hvis : v.visible) :
    shown s pre < shown s (pre ++ z :: post) := by
  have happend : ∀ qs : List Nat, shown s (pre ++ qs) = shown s pre + shown s qs :=
    fun qs => List.countP_append
  rw [happend, shown_cons s z post hv, if_pos hvis]
  omega

end Walk

-- Tiles in a row. Each takes 4 less than its share of the room, but not less than `least`.
section Row

variable {avail least : Int} {cells used : Nat}

def share (avail : Int) (cells : Nat) : Int := avail.tdiv cells

def taken (avail : Int) (cells : Nat) (least : Int) : Int := max (share avail cells - 4) least

theorem share_mul_le (havail : 0 ≤ avail) (hcells : 0 < cells) :
    share avail cells * cells ≤ avail := by
  rw [share, Int.tdiv_eq_ediv_of_nonneg havail]
  exact Int.ediv_mul_le avail (by omega)

theorem le_share_iff (havail : 0 ≤ avail) (hcells : 0 < cells) :
    least ≤ share avail cells ↔ least * cells ≤ avail := by
  rw [share, Int.tdiv_eq_ediv_of_nonneg havail]
  exact Int.le_ediv_iff_mul_le (by omega)

theorem share_le (cells : Nat) (havail : 0 ≤ avail) : share avail cells ≤ avail := by
  rw [share, Int.tdiv_eq_ediv_of_nonneg havail]
  exact Int.ediv_le_self _ havail

-- The tiles that are used end inside the room, and before the next one starts.
structure RowFits (avail : Int) (cells used : Nat) (least : Int) : Prop where
  stop : ∀ i < used, i * share avail cells + taken avail cells least ≤ avail
  apart : ∀ i j : Nat, i < j → j < used →
    i * share avail cells + taken avail cells least ≤ j * share avail cells

-- Either all the tiles are used or only the first.
theorem rowFits_of_room (hcells : 0 < cells) (hused : used = cells ∨ used = 1)
    (hleast : 4 ≤ least) (hroom : least * used ≤ avail) : RowFits avail cells used least := by
  have havail : 0 ≤ avail := Int.le_trans (Int.mul_nonneg (by omega) (by omega)) hroom
  rcases hused with rfl | rfl
  · have hshare : least ≤ share avail used := (le_share_iff havail hcells).mpr hroom
    have htaken : taken avail used least ≤ share avail used := by
      rw [taken]
      omega
    have hshare₀ : 0 ≤ share avail used := by omega
    -- a tile ends where the next one starts, or before
    have hnext : ∀ i : Nat, i * share avail used + taken avail used least ≤
        ((i + 1 : Nat) : Int) * share avail used := fun i => by
      rw [Int.natCast_add, Int.add_mul]
      omega
    have hlater : ∀ i j : Nat, i ≤ j → (i : Int) * share avail used ≤ j * share avail used :=
      fun i j hij => Int.mul_le_mul_of_nonneg_right (by omega) hshare₀
    refine ⟨fun i hi => ?_, fun i j hij _ => (hnext i).trans (hlater (i + 1) j hij)⟩
    calc i * share avail used + taken avail used least
        ≤ ((i + 1 : Nat) : Int) * share avail used := hnext i
      _ ≤ used * share avail used := hlater (i + 1) used hi
      _ ≤ avail := by
          rw [Int.mul_comm]
          exact share_mul_le havail hcells
  · have hle := share_le cells havail
    refine ⟨fun i hi => ?_, fun i j hij hj => by omega⟩
    obtain rfl : i = 0 := by omega
    rw [taken]
    omega

theorem room_of_first (hcells : 0 < cells) (hused : used = cells ∨ used = 1)
    (hleast : 4 ≤ least) (hfirst : taken avail cells least ≤ avail)
    (hsecond : 2 ≤ used → taken avail cells least ≤ share avail cells) :
    least * used ≤ avail := by
  rw [taken] at hfirst hsecond
  by_cases htwo : 2 ≤ used
  · have hshare := hsecond htwo
    rcases hused with rfl | rfl
    · exact (le_share_iff (by omega) hcells).mp (by omega)
    · omega
  · obtain rfl : used = 1 := by omega
    omega

end Row

-- The area that the tiles are put in.
def tileArea (scr : Int × Int) : Rect := ⟨10, 32, scr.1 - 10, scr.2 - 10⟩

-- The columns and rows that have a window.
def colsUsed (n : Nat) : Nat := min n (tiling n).1

def rowsUsed (n : Nat) : Nat := (n + (tiling n).1 - 1) / (tiling n).1

def TilesFit (scr : Int × Int) (n : Nat) : Prop :=
  n = 0 ∨ 160 * colsUsed n ≤ scr.1 - 20 ∧ 100 * rowsUsed n ≤ scr.2 - 42

instance (scr : Int × Int) (n : Nat) : Decidable (TilesFit scr n) :=
  inferInstanceAs (Decidable (_ ∨ _))

theorem tiling_used {n : Nat} (hn : 0 < n) :
    0 < (tiling n).1 ∧ 0 < (tiling n).2 ∧ (tiling n).1 ≤ 3 ∧
      (colsUsed n = (tiling n).1 ∨ colsUsed n = 1) ∧
      (rowsUsed n = (tiling n).2 ∨ rowsUsed n = 1) := by
  rw [colsUsed, rowsUsed, tiling]
  split
  · rename_i hn
    subst hn
    decide
  · split
    · obtain rfl | rfl | rfl : n = 1 ∨ n = 3 ∨ n = 4 := by omega
      all_goals decide
    · split
      · obtain rfl | rfl : n = 5 ∨ n = 6 := by omega
        all_goals decide
      · simp only
        omega

structure OnScreen (scr : Int × Int) : Prop where
  width : 0 < scr.1 ∧ scr.1 < 32768
  height : 0 < scr.2 ∧ scr.2 < 32768

theorem share_range (avail : Int) (cells : Nat) :
    min avail 0 ≤ share avail cells ∧ share avail cells ≤ max avail 0 := by
  rw [share]
  by_cases havail : 0 ≤ avail
  · rw [Int.tdiv_eq_ediv_of_nonneg havail]
    have hle := Int.ediv_le_self (cells : Int) havail
    have hge := Int.ediv_nonneg havail (Int.natCast_nonneg cells)
    omega
  · obtain ⟨k, rfl⟩ : ∃ k, avail = -k := ⟨-avail, by omega⟩
    have hk : 0 ≤ k := by omega
    rw [Int.neg_tdiv, Int.tdiv_eq_ediv_of_nonneg hk]
    have hle := Int.ediv_le_self (cells : Int) hk
    have hge := Int.ediv_nonneg hk (Int.natCast_nonneg cells)
    omega

theorem share_half (avail : Int) {cells : Nat} (hcells : 2 ≤ cells) (havail : 0 ≤ avail) :
    2 * share avail cells ≤ avail := by
  have hcells₀ : 0 < cells := by omega
  have hmul := share_mul_le havail hcells₀
  have hge := share_range avail cells
  have htwo : share avail cells * 2 ≤ share avail cells * cells :=
    Int.mul_le_mul_of_nonneg_left (by omega) (by omega)
  omega

-- The bounds of the window in a column and a row.
def tileBounds (scr : Int × Int) (n c r : Nat) : Rect :=
  let tileW := share (scr.1 - 20) (tiling n).1
  let tileH := share (scr.2 - 42) (tiling n).2
  ⟨10 + c * tileW, 32 + r * tileH, 10 + c * tileW + taken (scr.1 - 20) (tiling n).1 160,
    32 + r * tileH + taken (scr.2 - 42) (tiling n).2 100⟩

theorem asH_sub_asH (m n : Int) : asH (asH m - asH n) = asH (m - n) := by
  rw [asH, asH, asH, asH, Int.sub_bmod_bmod, Int.bmod_sub_bmod]

theorem wrszWnd_bounds (v : Wnd) (r : Rect) (mem : Bool) :
    (wrszWnd v r mem).bounds =
      ⟨r.left, r.top, asH (r.left + max (asH (r.right - r.left)) 160),
        asH (r.top + max (asH (r.bottom - r.top)) 100)⟩ := by
  have hmax : ∀ m least : Int, (if m < least then least else m) = max m least :=
    fun m least => by split <;> omega
  cases hdev : v.dev <;>
    simp only [wrszWnd, movWnd, rszWnd, wsetTabOffset, hdev, apply_ite Wnd.bounds, ite_self, hmax]

-- The end of a tile, from the ends of its share of the room.
theorem tile_stop {start tile least i : Int} (hstart : IsH (start + i * tile))
    (htile : -42 ≤ tile ∧ tile < 32768) :
    asH (asH (start + i * tile) +
        max (asH (asH (start + (i + 1) * tile - 4) - asH (start + i * tile))) least) =
      asH (start + i * tile + max (tile - 4) least) := by
  have hsize : start + (i + 1) * tile - 4 - (start + i * tile) = tile - 4 := by
    rw [Int.add_mul]
    omega
  rw [asH_sub_asH, hsize, asH_of_isH hstart, asH_of_range (n := tile - 4) (by omega)]

structure Rect.IsH (r : Rect) : Prop where
  left : Window.IsH r.left
  top : Window.IsH r.top
  right : Window.IsH r.right
  bottom : Window.IsH r.bottom

theorem wrszWnd_tile {scr : Int × Int} (hscr : OnScreen scr) {n idx : Nat}
    (hrange : Rect.IsH (tileBounds scr n (idx % (tiling n).1) (idx / (tiling n).1)))
    (v : Wnd) (mem : Bool) :
    (wrszWnd v (tileRect scr n idx) mem).bounds =
      tileBounds scr n (idx % (tiling n).1) (idx / (tiling n).1) := by
  obtain ⟨hw, hh⟩ := hscr
  have hwidth := share_range (scr.1 - 20) (tiling n).1
  have hheight := share_range (scr.2 - 42) (tiling n).2
  have hwidth' : -42 ≤ share (scr.1 - 20) (tiling n).1 ∧
      share (scr.1 - 20) (tiling n).1 < 32768 := by omega
  have hheight' : -42 ≤ share (scr.2 - 42) (tiling n).2 ∧
      share (scr.2 - 42) (tiling n).2 < 32768 := by omega
  have hw₀ : scr.1 - 10 - 10 = scr.1 - 20 := by omega
  have hh₀ : scr.2 - 32 - 10 = scr.2 - 42 := by omega
  have htileW : asH ((asH (scr.1 - 10 - 10)).tdiv (tiling n).1) =
      share (scr.1 - 20) (tiling n).1 := by
    rw [hw₀, asH_of_range (n := scr.1 - 20) (by omega), ← share, asH_of_range (by omega)]
  have htileH : asH ((asH (scr.2 - 32 - 10)).tdiv (tiling n).2) =
      share (scr.2 - 42) (tiling n).2 := by
    rw [hh₀, asH_of_range (n := scr.2 - 42) (by omega), ← share, asH_of_range (by omega)]
  obtain ⟨hleft, htop, hright, hbottom⟩ := hrange
  simp only [tileBounds, taken] at hleft htop hright hbottom
  rw [wrszWnd_bounds, tileRect]
  simp only [htileW, htileH, tile_stop hleft hwidth', tile_stop htop hheight']
  simp only [asH_of_isH hleft, asH_of_isH htop, asH_of_isH hright, asH_of_isH hbottom, tileBounds,
    taken]

-- The windows that are shown are in the area, and no pixel is in two of them.
structure Tiled (scr : Int × Int) (s : WndMgr) (ps : List Nat) : Prop where
  inside : ∀ p ∈ ps, ∀ v, s.mem p = some v → v.visible →
    10 ≤ v.bounds.left ∧ 32 ≤ v.bounds.top ∧ v.bounds.right ≤ scr.1 - 10 ∧
      v.bounds.bottom ≤ scr.2 - 10
  apart : ∀ p ∈ ps, ∀ q ∈ ps, p ≠ q → ∀ v w, s.mem p = some v → s.mem q = some w →
    v.visible → w.visible → ∀ x y, v.bounds.contains x y → ¬w.bounds.contains x y

-- The windows that are shown have numbers, and each has the tile of its number.
structure Gridded (scr : Int × Int) (s : WndMgr) (ps : List Nat) (n : Nat)
    (num : Nat → Nat) : Prop where
  tile : ∀ p ∈ ps, ∀ v, s.mem p = some v → v.visible → num p < n ∧
    ∃ w mem, v.bounds = (wrszWnd w (tileRect scr n (num p)) mem).bounds
  inj : ∀ p ∈ ps, ∀ q ∈ ps, ∀ v w, s.mem p = some v → s.mem q = some w → v.visible →
    w.visible → num p = num q → p = q
  all : ∀ idx < n, ∃ p ∈ ps, ∃ v, s.mem p = some v ∧ v.visible ∧ num p = idx

section Grid

variable {scr : Int × Int} {s : WndMgr} {ps : List Nat} {n : Nat} {num : Nat → Nat}

theorem tile_used {idx : Nat} (h : idx < n) :
    idx % (tiling n).1 < colsUsed n ∧ idx / (tiling n).1 < rowsUsed n := by
  obtain ⟨hcols, -⟩ := tiling_used (n := n) (by omega)
  constructor
  · have hmod := Nat.mod_lt idx hcols
    have hle := Nat.mod_le idx (tiling n).1
    rw [colsUsed]
    omega
  · have hn : n + (tiling n).1 - 1 = n - 1 + (tiling n).1 := by omega
    have hle : idx / (tiling n).1 ≤ (n - 1) / (tiling n).1 := Nat.div_le_div_right (by omega)
    rw [rowsUsed, hn, Nat.add_div_right _ hcols]
    omega

-- The tiles in use are in the area where there is room for their least size.
theorem tile_inside (hn : 0 < n) (hfit : TilesFit scr n) {c r : Nat}
    (hc : c < colsUsed n) (hr : r < rowsUsed n) :
    10 ≤ (tileBounds scr n c r).left ∧ 32 ≤ (tileBounds scr n c r).top ∧
      (tileBounds scr n c r).left < (tileBounds scr n c r).right ∧
      (tileBounds scr n c r).top < (tileBounds scr n c r).bottom ∧
      (tileBounds scr n c r).right ≤ scr.1 - 10 ∧ (tileBounds scr n c r).bottom ≤ scr.2 - 10 := by
  obtain ⟨hacross, hdown⟩ := hfit.resolve_left (by omega)
  obtain ⟨hcols, hrows, -, hused, hused'⟩ := tiling_used hn
  have hx := (rowFits_of_room hcols hused (by decide) hacross).stop c hc
  have hy := (rowFits_of_room hrows hused' (by decide) hdown).stop r hr
  have hwidth := share_range (scr.1 - 20) (tiling n).1
  have hheight := share_range (scr.2 - 42) (tiling n).2
  have hx₀ : 0 ≤ (c : Int) * share (scr.1 - 20) (tiling n).1 :=
    Int.mul_nonneg (Int.natCast_nonneg c) (by omega)
  have hy₀ : 0 ≤ (r : Int) * share (scr.2 - 42) (tiling n).2 :=
    Int.mul_nonneg (Int.natCast_nonneg r) (by omega)
  have hleast : 160 ≤ taken (scr.1 - 20) (tiling n).1 160 := Int.le_max_right _ _
  have hleast' : 100 ≤ taken (scr.2 - 42) (tiling n).2 100 := Int.le_max_right _ _
  simp only [tileBounds]
  omega

theorem tile_apart (hn : 0 < n) (hfit : TilesFit scr n) {c r c' r' : Nat}
    (hc : c < colsUsed n) (hr : r < rowsUsed n) (hc' : c' < colsUsed n) (hr' : r' < rowsUsed n)
    (hne : c ≠ c' ∨ r ≠ r') {x y : Int} (hin : (tileBounds scr n c r).contains x y) :
    ¬(tileBounds scr n c' r').contains x y := by
  obtain ⟨hacross, hdown⟩ := hfit.resolve_left (by omega)
  obtain ⟨hcols, hrows, -, hused, hused'⟩ := tiling_used hn
  have hx := (rowFits_of_room hcols hused (by decide) hacross).apart
  have hy := (rowFits_of_room hrows hused' (by decide) hdown).apart
  rw [Rect.contains_iff] at *
  simp only [tileBounds] at *
  rcases hne with hne | hne
  · rcases Nat.lt_or_gt_of_ne hne with hlt | hlt
    · have := hx c c' hlt hc'
      omega
    · have := hx c' c hlt hc
      omega
  · rcases Nat.lt_or_gt_of_ne hne with hlt | hlt
    · have := hy r r' hlt hr'
      omega
    · have := hy r' r hlt hr
      omega

theorem Gridded.bounds (h : Gridded scr s ps n num) (hscr : OnScreen scr)
    (hfit : TilesFit scr n) {p : Nat} (hp : p ∈ ps) {v : Wnd} (hv : s.mem p = some v)
    (hvis : v.visible) :
    v.bounds = tileBounds scr n (num p % (tiling n).1) (num p / (tiling n).1) := by
  obtain ⟨hnum, w, mem, heq⟩ := h.tile p hp v hv hvis
  obtain ⟨hc, hr⟩ := tile_used hnum
  obtain ⟨hl, ht, hlr, htb, hin, hin'⟩ := tile_inside (by omega) hfit hc hr
  obtain ⟨hw, hh⟩ := hscr
  rw [heq]
  apply wrszWnd_tile ⟨hw, hh⟩
  constructor <;> rw [IsH] <;> omega

-- With room enough for their least size the tiles keep apart.
theorem Gridded.tiled (h : Gridded scr s ps n num) (hscr : OnScreen scr) (hfit : TilesFit scr n) :
    Tiled scr s ps := by
  constructor
  · intro p hp v hv hvis
    have hnum := (h.tile p hp v hv hvis).1
    obtain ⟨hc, hr⟩ := tile_used hnum
    obtain ⟨hl, ht, -, -, hright, hbottom⟩ := tile_inside (by omega) hfit hc hr
    rw [h.bounds hscr hfit hp hv hvis]
    exact ⟨hl, ht, hright, hbottom⟩
  · intro p hp q hq hne v w hv hw hvis hwis x y hin
    have hnum := (h.tile p hp v hv hvis).1
    have hnum' := (h.tile q hq w hw hwis).1
    obtain ⟨hc, hr⟩ := tile_used hnum
    obtain ⟨hc', hr'⟩ := tile_used hnum'
    rw [h.bounds hscr hfit hp hv hvis] at hin
    rw [h.bounds hscr hfit hq hw hwis]
    refine tile_apart (by omega) hfit hc hr hc' hr' ?_ hin
    -- windows of one row and column have one number
    by_contra hsame
    obtain ⟨hmod, hdiv⟩ := not_or.mp hsame
    refine hne (h.inj p hp q hq v w hv hw hvis hwis ?_)
    rw [← Nat.div_add_mod (num p) (tiling n).1, ← Nat.div_add_mod (num q) (tiling n).1,
      not_not.mp hmod, not_not.mp hdiv]

theorem corner_range (hscr : OnScreen scr) {c r : Nat} (hc : c ≤ 1) (hr : r ≤ 1)
    (hcols : c = 1 → 2 ≤ (tiling n).1) (hrows : r = 1 → 2 ≤ (tiling n).2) :
    Rect.IsH (tileBounds scr n c r) := by
  obtain ⟨hw, hh⟩ := hscr
  have hwidth := share_range (scr.1 - 20) (tiling n).1
  have hheight := share_range (scr.2 - 42) (tiling n).2
  have hx : -32 ≤ c * share (scr.1 - 20) (tiling n).1 ∧
      c * share (scr.1 - 20) (tiling n).1 + taken (scr.1 - 20) (tiling n).1 160 < 32750 := by
    rw [taken]
    obtain rfl | rfl : c = 0 ∨ c = 1 := by omega
    · omega
    · have hhalf := share_half (scr.1 - 20) (hcols rfl)
      omega
  have hy : -42 ≤ r * share (scr.2 - 42) (tiling n).2 ∧
      r * share (scr.2 - 42) (tiling n).2 + taken (scr.2 - 42) (tiling n).2 100 < 32730 := by
    rw [taken]
    obtain rfl | rfl : r = 0 ∨ r = 1 := by omega
    · omega
    · have hhalf := share_half (scr.2 - 42) (hrows rfl)
      omega
  have hleast : 160 ≤ taken (scr.1 - 20) (tiling n).1 160 := Int.le_max_right _ _
  have hleast' : 100 ≤ taken (scr.2 - 42) (tiling n).2 100 := Int.le_max_right _ _
  constructor <;> simp only [IsH, tileBounds] <;> omega

theorem Gridded.corner (h : Gridded scr s ps n num) (hscr : OnScreen scr) (idx : Nat) {c r : Nat}
    (hidx : idx < n) (hmod : idx % (tiling n).1 = c) (hdiv : idx / (tiling n).1 = r)
    (hc : c ≤ 1) (hr : r ≤ 1) (hcols : c = 1 → 2 ≤ (tiling n).1)
    (hrows : r = 1 → 2 ≤ (tiling n).2) :
    ∃ p ∈ ps, ∃ v, s.mem p = some v ∧ v.visible ∧ num p = idx ∧
      v.bounds = tileBounds scr n c r := by
  obtain ⟨p, hp, v, hv, hvis, hnum⟩ := h.all idx hidx
  obtain ⟨-, w, mem, heq⟩ := h.tile p hp v hv hvis
  subst hmod hdiv
  refine ⟨p, hp, v, hv, hvis, hnum, ?_⟩
  rw [heq, hnum]
  exact wrszWnd_tile hscr (corner_range hscr hc hr hcols hrows) w mem

-- The first tile, and the ones right of it and below it, show whether there is room.
theorem Gridded.fits (h : Gridded scr s ps n num) (hscr : OnScreen scr)
    (htiled : Tiled scr s ps) : TilesFit scr n := by
  rw [TilesFit]
  by_cases hn : n = 0
  · exact .inl hn
  obtain ⟨hcols, hrows, -, hused, hused'⟩ := tiling_used (n := n) (by omega)
  obtain ⟨p, hp, v, hv, hvis, hnum, hb⟩ := h.corner hscr 0 (c := 0) (r := 0)
    (by omega) (Nat.zero_mod _) (Nat.zero_div _) (by omega) (by omega) (by omega) (by omega)
  have hin := htiled.inside p hp v hv hvis
  have hleast : 160 ≤ taken (scr.1 - 20) (tiling n).1 160 := Int.le_max_right _ _
  have hleast' : 100 ≤ taken (scr.2 - 42) (tiling n).2 100 := Int.le_max_right _ _
  simp only [hb, tileBounds] at hin
  refine .inr ⟨room_of_first hcols hused (by decide) (by omega) fun htwo => ?_,
    room_of_first hrows hused' (by decide) (by omega) fun htwo => ?_⟩
  · have hcols₂ : 2 ≤ n ∧ 2 ≤ (tiling n).1 := by
      rw [colsUsed] at htwo
      omega
    obtain ⟨q, hq, w, hw, hwis, hnum', hb'⟩ := h.corner hscr 1 (c := 1) (r := 0)
      (by omega) (Nat.mod_eq_of_lt (by omega)) (Nat.div_eq_of_lt (by omega)) (by omega) (by omega)
      (fun _ => hcols₂.2) (by omega)
    have hne : p ≠ q := by
      rintro rfl
      omega
    -- the left edge of the second tile is not in the first
    have hout := htiled.apart p hp q hq hne v w hv hw hvis hwis
      (10 + share (scr.1 - 20) (tiling n).1) 32
    simp only [hb, hb', Rect.contains_iff, tileBounds] at hout
    have hheight := share_range (scr.1 - 20) (tiling n).1
    omega
  · have hrows₂ : (tiling n).1 < n := by
      rw [rowsUsed, Nat.le_div_iff_mul_le hcols] at htwo
      omega
    have hrows₂' : 2 ≤ (tiling n).2 := by omega
    obtain ⟨q, hq, w, hw, hwis, hnum', hb'⟩ := h.corner hscr (tiling n).1 (c := 0)
      (r := 1) hrows₂ (Nat.mod_self _) (Nat.div_self hcols) (by omega) (by omega) (by omega)
      (fun _ => hrows₂')
    have hne : p ≠ q := by
      rintro rfl
      omega
    have hout := htiled.apart p hp q hq hne v w hv hw hvis hwis 10
      (32 + share (scr.2 - 42) (tiling n).2)
    simp only [hb, hb', Rect.contains_iff, tileBounds] at hout
    have hheight := share_range (scr.2 - 42) (tiling n).2
    omega

end Grid

section Tile

variable {s : WndMgr} {ps : List Nat}

-- A window's number is that of the windows shown before it.
def numberOf (s : WndMgr) (ps : List Nat) (p : Nat) : Nat := shown s (ps.takeWhile (· != p))

theorem numberOf_append {pre post : List Nat} {z : Nat} (hz : z ∉ pre) :
    numberOf s (pre ++ z :: post) z = shown s pre := by
  have hpre : ∀ p ∈ pre, (p != z) = true := by
    rintro p hp
    rw [bne_iff_ne]
    rintro rfl
    exact hz hp
  rw [numberOf, List.takeWhile_append_of_pos hpre, List.takeWhile_cons_of_neg (by simp),
    List.append_nil]

theorem not_mem_before {pre post : List Nat} {z : Nat} (hnd : (pre ++ z :: post).Nodup) :
    z ∉ pre :=
  fun hz => (List.nodup_append.mp hnd).2.2 z hz z List.mem_cons_self rfl

theorem numberOf_lt {pre mid post : List Nat} {p q : Nat}
    (hnd : (pre ++ p :: (mid ++ q :: post)).Nodup) {v : Wnd} (hv : s.mem p = some v)
    (hvis : v.visible) :
    numberOf s (pre ++ p :: (mid ++ q :: post)) p <
      numberOf s (pre ++ p :: (mid ++ q :: post)) q := by
  have hsame : pre ++ p :: (mid ++ q :: post) = (pre ++ p :: mid) ++ q :: post := by simp
  rw [numberOf_append (not_mem_before hnd)]
  rw [hsame] at hnd ⊢
  rw [numberOf_append (not_mem_before hnd)]
  exact shown_lt hv hvis

-- Two windows of the list stand one before the other.
theorem before_or_after {p q : Nat} (hp : p ∈ ps) (hq : q ∈ ps) (hne : p ≠ q) :
    (∃ pre mid post, ps = pre ++ p :: (mid ++ q :: post)) ∨
      ∃ pre mid post, ps = pre ++ q :: (mid ++ p :: post) := by
  obtain ⟨pre, post, rfl⟩ := List.append_of_mem hp
  rcases List.mem_append.mp hq with hq | hq
  · obtain ⟨pre', mid, rfl⟩ := List.append_of_mem hq
    exact .inr ⟨pre', mid, post, by simp⟩
  · obtain ⟨mid, post', rfl⟩ := List.append_of_mem ((List.mem_cons.mp hq).resolve_left hne.symm)
    exact .inl ⟨pre, mid, post', rfl⟩

theorem wndTileAll_gridded (h : Chain s ps) (screen : Option (Int × Int)) (mem : Nat → Bool) :
    ∃ s', wndTileAll s screen mem = some s' ∧
      Gridded (screen.getD (1280, 800)) s' ps (shown s ps) (numberOf s ps) := by
  have hcount : countVisible s (s.count + 1) s.head = some (shown s ps) := by
    rw [h.head]
    exact countVisible_from h.links h.live (Nat.lt_succ_of_le h.count)
  have hinj : ∀ p ∈ ps, ∀ q ∈ ps, ∀ v w, s.mem p = some v → s.mem q = some w → v.visible →
      w.visible → numberOf s ps p = numberOf s ps q → p = q := by
    intro p hp q hq v w hv hw hvis hwis hnum
    by_contra hne
    rcases before_or_after hp hq hne with ⟨pre, mid, post, rfl⟩ | ⟨pre, mid, post, rfl⟩
    · exact absurd hnum (numberOf_lt h.nodup hv hvis).ne
    · exact absurd hnum (numberOf_lt h.nodup hw hwis).ne'
  have hnumber : ∀ p ∈ ps, ∀ v, s.mem p = some v → v.visible → numberOf s ps p < shown s ps := by
    intro p hp v hv hvis
    obtain ⟨pre, post, rfl⟩ := List.append_of_mem hp
    rw [numberOf_append (not_mem_before h.nodup)]
    exact shown_lt hv hvis
  by_cases hn : shown s ps = 0
  · refine ⟨s, by rw [wndTileAll, hcount]; exact if_pos hn, fun p hp v hv hvis => ?_, hinj,
      fun idx hidx => ?_⟩
    · have hlt := hnumber p hp v hv hvis
      omega
    · omega
  · let scr := screen.getD (1280, 800)
    let tile : Nat → Wnd → Wnd := fun idx v =>
      if v.visible then wrszWnd v (tileRect scr (shown s ps) idx) (mem idx) else v
    obtain ⟨hid, hvisible⟩ := place_keeping (tileRect scr (shown s ps)) mem
    have hlist : ∀ i v, (tile i v).next = v.next ∧ (tile i v).prev = v.prev := fun i v => by
      have heq := hid i v
      simp only [Prod.mk.injEq] at heq
      exact ⟨heq.2.2.1, heq.2.2.2⟩
    have hseen : ∀ i v, (tile i v).visible = v.visible := fun i v =>
      (Prod.mk.inj (hvisible i v)).1
    obtain ⟨s', heach, -, hmem⟩ := eachWnd_index (f := tile) (fun i v => (hlist i v).1)
      (fun i v => (hlist i v).2) 0 h.links h.live h.nodup (Nat.lt_succ_of_le h.count)
    -- what becomes of a window
    have hafter : ∀ p ∈ ps, s'.mem p = (s.mem p).map (tile (numberOf s ps p)) := by
      intro p hp
      obtain ⟨pre, post, heq⟩ := List.append_of_mem hp
      rw [hmem pre p post heq, Nat.zero_add]
      have hnd := h.nodup
      rw [heq] at hnd ⊢
      rw [numberOf_append (not_mem_before hnd)]
    have hwas : ∀ p ∈ ps, ∀ v, s'.mem p = some v → v.visible →
        ∃ w, s.mem p = some w ∧ w.visible ∧ tile (numberOf s ps p) w = v := by
      intro p hp v hv hvis
      rw [hafter p hp, Option.map_eq_some_iff] at hv
      obtain ⟨w, hw, rfl⟩ := hv
      exact ⟨w, hw, (hseen _ w).symm.trans hvis, rfl⟩
    refine ⟨s', ?_, fun p hp v hv hvis => ?_, fun p hp q hq v w hv hw hvis hwis => ?_,
      fun idx hidx => ?_⟩
    · rw [wndTileAll, hcount]
      exact (if_neg hn).trans (by rw [h.head]; exact heach)
    · obtain ⟨w, hw, hwis, rfl⟩ := hwas p hp v hv hvis
      refine ⟨hnumber p hp w hw hwis, w, mem (numberOf s ps p), ?_⟩
      simp only [tile, if_pos hwis]
      rfl
    · obtain ⟨v', hv', hvis', -⟩ := hwas p hp v hv hvis
      obtain ⟨w', hw', hwis', -⟩ := hwas q hq w hw hwis
      exact hinj p hp q hq v' w' hv' hw' hvis' hwis'
    · obtain ⟨pre, z, post, v, heq, hv, hvis, hpre⟩ := shown_place h.live hidx
      have hz : z ∈ ps := by simp [heq]
      refine ⟨z, hz, tile (numberOf s ps z) v, ?_, (hseen _ v).trans hvis, ?_⟩
      · rw [hafter z hz, hv, Option.map_some]
      · have hnd := h.nodup
        rw [heq] at hnd ⊢
        rw [numberOf_append (not_mem_before hnd), hpre]

-- The tiles keep apart and in the area exactly when there is room for their least size.
theorem wndTileAll_apart_iff (h : Chain s ps) (screen : Option (Int × Int))
    (hscr : OnScreen (screen.getD (1280, 800))) (mem : Nat → Bool) :
    ∃ s', wndTileAll s screen mem = some s' ∧
      (Tiled (screen.getD (1280, 800)) s' ps ↔
        TilesFit (screen.getD (1280, 800)) (shown s ps)) := by
  obtain ⟨s', htile, hgrid⟩ := wndTileAll_gridded h screen mem
  exact ⟨s', htile, hgrid.fits hscr, hgrid.tiled hscr⟩

theorem wndTileAll_apart_iff_two : ∃ s', wndTileAll twoWindows none (fun _ => true) = some s' ∧
    (Tiled (1280, 800) s' [0, 1] ↔ TilesFit (1280, 800) (shown twoWindows [0, 1])) :=
  wndTileAll_apart_iff chain_twoWindows none ⟨by decide, by decide⟩ _

-- Two windows on a screen 320 wide: the first one reaches into the second.
theorem wndTileAll_overlaps :
    ∃ s', wndTileAll twoWindows (some (320, 240)) (fun _ => true) = some s' ∧
      ¬Tiled (320, 240) s' [0, 1] := by
  obtain ⟨s', htile, hgrid⟩ := wndTileAll_gridded chain_twoWindows (some (320, 240)) fun _ => true
  refine ⟨s', htile, fun htiled => ?_⟩
  have hfit := hgrid.fits ⟨by decide, by decide⟩ htiled
  revert hfit
  decide

end Tile

end BTron.Window
