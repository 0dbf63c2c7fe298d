import BTron.Window.Events
import BTron.Window.List

namespace BTron.Window

open Lib Graphics

def wrszWnd (wnd : Wnd) (r : Rect) (mem : Bool) : Wnd :=
  let w := asH (r.right - r.left)
  let h := asH (r.bottom - r.top)
  rszWnd (movWnd wnd r.left r.top) w h mem

-- The loops that change one window after the other. `idx` counts the visible ones passed.
def eachWnd (f : Nat → Wnd → Wnd) : Nat → WndMgr → Nat → Option Nat → Option WndMgr
  | 0, _, _, _ => none
  | _ + 1, s, _, none => some s
  | fuel + 1, s, idx, some c => do
    let curr ← s.mem c
    let s ← s.write c (f idx)
    let after ← s.mem c
    eachWnd f fuel s (if curr.visible then idx + 1 else idx) after.next

def cascadeRect (idx : Nat) : Rect :=
  let d : Int := (idx % 10 : Nat) * 28
  ⟨asH (40 + d), asH (42 + d), asH (40 + d + 580), asH (42 + d + 380)⟩

-- `mem idx` says that there is memory for the device of the window placed as number idx.
def wndCascadeAll (s : WndMgr) (mem : Nat → Bool) : Option WndMgr :=
  eachWnd (fun idx v => if v.visible then wrszWnd v (cascadeRect idx) (mem idx) else v)
    (s.count + 1) s 0 s.head

def countVisible (s : WndMgr) : Nat → Option Nat → Option Nat
  | 0, _ => none
  | _ + 1, none => some 0
  | fuel + 1, some c =>
    (s.mem c).bind fun v =>
      (countVisible s fuel v.next).map fun count => if v.visible then count + 1 else count

-- The columns and rows for so many windows.
def tiling (count : Nat) : Nat × Nat :=
  if count = 2 then (2, 1)
  else if count ≤ 4 then (2, 2)
  else if count ≤ 6 then (3, 2)
  else (3, (count + 2) / 3)

-- `scr` is the size of the screen.
def tileRect (scr : Int × Int) (count idx : Nat) : Rect :=
  let (cols, rows) := tiling count
  let tileW := asH ((asH (scr.1 - 10 - 10)).tdiv cols)
  let tileH := asH ((asH (scr.2 - 32 - 10)).tdiv rows)
  let c : Int := (idx % cols : Nat)
  let r : Int := (idx / cols : Nat)
  ⟨asH (10 + c * tileW), asH (32 + r * tileH), asH (10 + (c + 1) * tileW - 4),
    asH (32 + (r + 1) * tileH - 4)⟩

-- `screen` is the size of g_screen_dev.
def wndTileAll (s : WndMgr) (screen : Option (Int × Int)) (mem : Nat → Bool) : Option WndMgr := do
  let count ← countVisible s (s.count + 1) s.head
  if count = 0 then some s
  else
    eachWnd (fun idx v =>
        if v.visible then wrszWnd v (tileRect (screen.getD (1280, 800)) count idx) (mem idx) else v)
      (s.count + 1) s 0 s.head

def wndHideAll (s : WndMgr) : Option WndMgr :=
  eachWnd (fun _ v => { v with visible := false }) (s.count + 1) s 0 s.head

-- The loop of `global_menu_execute_cmd` that looks for a window of the menu.
def visibleAt (s : WndMgr) (targetWIdx : Nat) : Nat → Nat → Option Nat → Option (Option Nat)
  | 0, _, _ => none
  | _ + 1, _, none => some none
  | fuel + 1, idx, some w =>
    (s.mem w).bind fun v =>
      if v.visible then
        if idx = targetWIdx then some (some w) else visibleAt s targetWIdx fuel (idx + 1) v.next
      else visibleAt s targetWIdx fuel idx v.next

def menuTarget (s : WndMgr) (targetWIdx : Nat) : Option (Option Nat) :=
  visibleAt s targetWIdx (s.count + 1) 0 s.head

-- A window of the window menu is selected.
def menuSelect (s : WndMgr) (targetWIdx : Nat) : Option WndMgr := do
  match ← menuTarget s targetWIdx with
  | some w => (topWnd s (some w)).map Prod.fst
  | none => some s

-- A window of the tracker menu is selected, which is `item->target_wnd`.
def trackerSelect (s : WndMgr) (targetWnd : Nat) : Option WndMgr := do
  let (s, _) ← topWnd s (some targetWnd)
  s.write targetWnd fun v => { v with focused := true }

-- A change of one window that leaves it in its place, and does to the rest what `R` says.
structure Keeping (R : Wnd → Wnd → Prop) (f : Nat → Wnd → Wnd) : Prop where
  list : ∀ i v, ((f i v).id, (f i v).focused, (f i v).next, (f i v).prev) =
    (v.id, v.focused, v.next, v.prev)
  rest : ∀ i v, R v (f i v)

theorem eachWnd_from {R : Wnd → Wnd → Prop} {f : Nat → Wnd → Wnd} (hf : Keeping R f)
    {s : WndMgr} {before : Option Nat} {ps rest : List Nat} {idx fuel : Nat}
    (h : Represents s ps) (hlinks : Linked s.next s.prev before rest none)
    (hmem : ∀ z ∈ rest, z ∈ ps) (hnd : rest.Nodup) (hfuel : rest.length < fuel) :
    ∃ s', eachWnd f fuel s idx rest.head? = some s' ∧ Represents s' ps ∧
      ∀ z, if z ∈ rest then ∃ v w, s.mem z = some v ∧ s'.mem z = some w ∧ R v w
        else s'.mem z = s.mem z := by
  induction rest generalizing s before idx fuel with
  | nil =>
      obtain ⟨n, rfl⟩ := Nat.exists_eq_add_of_lt hfuel
      refine ⟨s, by simp [eachWnd], h, fun z => ?_⟩
      rw [if_neg List.not_mem_nil]
  | cons c rest ih =>
      obtain ⟨n, rfl⟩ : ∃ n, fuel = n + 1 := ⟨fuel - 1, by omega⟩
      obtain ⟨-, hnext, hrest⟩ := hlinks
      obtain ⟨hc, hnd'⟩ := List.nodup_cons.mp hnd
      obtain ⟨v, hv⟩ := Option.ne_none_iff_exists'.mp (h.all_live c (hmem c List.mem_cons_self))
      have hnot : ∀ z, z ≠ c → some z ≠ some c := fun z hz heq => hz (Option.some.inj heq)
      have hlist := hf.list idx
      simp only [Prod.mk.injEq] at hlist
      -- the write at c
      have hwrite : s.write c (f idx) = some (s.put (some c) (f idx)) :=
        WndMgr.write_of_live _ (by simp [hv])
      have hput : (s.put (some c) (f idx)).mem c = some (f idx v) := by
        rw [WndMgr.put_mem, if_pos rfl, hv, Option.map_some]
      have hput_next : (s.put (some c) (f idx)).next = s.next :=
        WndMgr.put_next fun v => (hlist v).2.2.1
      have hput_prev : (s.put (some c) (f idx)).prev = s.prev :=
        WndMgr.put_prev fun v => (hlist v).2.2.2
      have hafter : (f idx v).next = rest.head? := by
        rw [(hlist v).2.2.1, ← Option.or_none (o := rest.head?), ← hnext, WndMgr.next, hv]
        rfl
      have hrep : Represents (s.put (some c) (f idx)) ps :=
        h.of_same ⟨WndMgr.put_ids fun v => (hlist v).1, WndMgr.put_focus fun v => (hlist v).2.1,
          fun _ => WndMgr.put_live, rfl, rfl, rfl⟩ hput_next hput_prev
      have hrest' : Linked (s.put (some c) (f idx)).next (s.put (some c) (f idx)).prev (some c)
          rest none := by
        rw [hput_next, hput_prev]
        exact hrest
      have hfuel' : rest.length < n := by
        rw [List.length_cons] at hfuel
        omega
      obtain ⟨s', hs', hrep', hz'⟩ := @ih _ _ (if v.visible then idx + 1 else idx) n hrep hrest'
        (fun z hz => hmem z (List.mem_cons_of_mem _ hz)) hnd' hfuel'
      refine ⟨s', ?_, hrep', fun z => ?_⟩
      · rw [List.head?_cons, eachWnd, hv]
        simp only [Option.bind_eq_bind, Option.bind_some, hwrite, hput, hafter]
        exact hs'
      · have hspec := hz' z
        by_cases hzc : z = c
        · subst hzc
          rw [if_neg hc, hput] at hspec
          rw [if_pos List.mem_cons_self]
          exact ⟨v, f idx v, hv, hspec, hf.rest idx v⟩
        · rw [WndMgr.put_mem_of_ne (hnot z hzc)] at hspec
          simpa [List.mem_cons, hzc] using hspec

-- The loop ends, leaves the list as it is and does to every window what it should.
theorem eachWnd_spec {R : Wnd → Wnd → Prop} {f : Nat → Wnd → Wnd} (hf : Keeping R f)
    {s : WndMgr} {ps : List Nat} (h : Represents s ps) :
    ∃ s', eachWnd f (s.count + 1) s 0 s.head = some s' ∧ Represents s' ps ∧
      ∀ z v, s.mem z = some v → ∃ w, s'.mem z = some w ∧ R v w := by
  have hfuel : ps.length < s.count + 1 := by
    rw [h.count]
    omega
  obtain ⟨s', hs', h', hz⟩ := @eachWnd_from R f hf s none ps ps 0 (s.count + 1) h h.links
    (fun _ => id) h.nodup hfuel
  rw [h.head]
  refine ⟨s', hs', h', fun z v hv => ?_⟩
  have hspec := hz z
  rw [if_pos ((h.live z).mp (by simp [hv]))] at hspec
  obtain ⟨v', w, hv', hw, hR⟩ := hspec
  obtain rfl := Option.some.inj (hv.symm.trans hv')
  exact ⟨w, hw, hR⟩

end BTron.Window
