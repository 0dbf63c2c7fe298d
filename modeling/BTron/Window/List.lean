import BTron.Lib.DList
import BTron.Lib.Run
import BTron.Window.Manager
import Mathlib.Data.List.Induction
import Mathlib.Data.List.Nodup

namespace BTron.Window

open Lib

namespace WndMgr

def next (s : WndMgr) (p : Nat) : Option Nat := (s.mem p).bind Wnd.next

def prev (s : WndMgr) (p : Nat) : Option Nat := (s.mem p).bind Wnd.prev

def ids (s : WndMgr) (p : Nat) : Option Int := (s.mem p).map Wnd.id

def focus (s : WndMgr) (p : Nat) : Option Bool := (s.mem p).map Wnd.focused

variable {s : WndMgr} {p z : Nat} {q : Option Nat} {f : Wnd → Wnd} {wnd : Wnd}

@[simp] theorem put_head (s : WndMgr) (q : Option Nat) (f : Wnd → Wnd) :
    (s.put q f).head = s.head := rfl

@[simp] theorem put_count (s : WndMgr) (q : Option Nat) (f : Wnd → Wnd) :
    (s.put q f).count = s.count := rfl

@[simp] theorem put_nextId (s : WndMgr) (q : Option Nat) (f : Wnd → Wnd) :
    (s.put q f).nextId = s.nextId := rfl

theorem put_mem (s : WndMgr) (q : Option Nat) (f : Wnd → Wnd) (z : Nat) :
    (s.put q f).mem z = if some z = q then (s.mem z).map f else s.mem z := rfl

@[simp] theorem put_live : (s.put q f).mem z = none ↔ s.mem z = none := by
  rw [put_mem]
  split <;> simp

theorem put_mem_of_ne (h : some z ≠ q) : (s.put q f).mem z = s.mem z := if_neg h

-- A write leaves the fields it does not name as they are.
theorem put_next (hf : ∀ v, (f v).next = v.next) : (s.put q f).next = s.next := by
  funext z
  rw [next, next, put_mem]
  split
  · cases s.mem z <;> simp [hf]
  · rfl

theorem put_prev (hf : ∀ v, (f v).prev = v.prev) : (s.put q f).prev = s.prev := by
  funext z
  rw [prev, prev, put_mem]
  split
  · cases s.mem z <;> simp [hf]
  · rfl

theorem put_ids (hf : ∀ v, (f v).id = v.id) : (s.put q f).ids = s.ids := by
  funext z
  rw [ids, ids, put_mem]
  split
  · cases s.mem z <;> simp [hf]
  · rfl

theorem put_focus (hf : ∀ v, (f v).focused = v.focused) : (s.put q f).focus = s.focus := by
  funext z
  rw [focus, focus, put_mem]
  split
  · cases s.mem z <;> simp [hf]
  · rfl

theorem put_next_of_ne (h : some z ≠ q) : (s.put q f).next z = s.next z := by
  rw [next, next, put_mem_of_ne h]

theorem put_prev_of_ne (h : some z ≠ q) : (s.put q f).prev z = s.prev z := by
  rw [prev, prev, put_mem_of_ne h]

theorem put_next_self (h : s.mem z ≠ none) {v : Option Nat} (hf : ∀ w, (f w).next = v) :
    (s.put (some z) f).next z = v := by
  obtain ⟨w, hw⟩ := Option.ne_none_iff_exists'.mp h
  rw [next, put_mem, if_pos rfl, hw]
  exact hf w

theorem put_prev_self (h : s.mem z ≠ none) {v : Option Nat} (hf : ∀ w, (f w).prev = v) :
    (s.put (some z) f).prev z = v := by
  obtain ⟨w, hw⟩ := Option.ne_none_iff_exists'.mp h
  rw [prev, put_mem, if_pos rfl, hw]
  exact hf w

theorem put_focus_eq {b : Bool} (hf : ∀ w, (f w).focused = b) (hlive : s.mem z ≠ none) :
    (s.put q f).focus z = if some z = q then some b else s.focus z := by
  obtain ⟨w, hw⟩ := Option.ne_none_iff_exists'.mp hlive
  rw [focus, focus, put_mem]
  split
  · simp [hw, hf]
  · rfl

theorem put_none (s : WndMgr) (f : Wnd → Wnd) : s.put none f = s := by
  simp [put]

theorem write_of_live (f : Wnd → Wnd) (h : s.mem p ≠ none) :
    s.write p f = some (s.put (some p) f) := by
  obtain ⟨w, hw⟩ := Option.ne_none_iff_exists'.mp h
  rw [write, hw]
  rfl

theorem writeIf_of_live (f : Wnd → Wnd) (h : ∀ p, q = some p → s.mem p ≠ none) :
    s.writeIf q f = some (s.put q f) := by
  cases q with
  | none => rw [writeIf, put_none]
  | some p => exact write_of_live f (h p rfl)

end WndMgr

-- The windows form the list `ps`, front to back.
structure Represents (s : WndMgr) (ps : List Nat) : Prop where
  head : s.head = ps.head?
  links : Linked s.next s.prev none ps none
  nodup : ps.Nodup
  live : ∀ p, s.mem p ≠ none ↔ p ∈ ps
  count : s.count = ps.length
  distinct : ∀ p q i, s.ids p = some i → s.ids q = some i → p = q
  fresh : ∀ p i, s.ids p = some i → i < s.nextId
  focus : ∀ p ∈ ps, s.focus p = some (decide (ps.head? = some p))

-- The two states differ in links only.
structure Relinked (s s' : WndMgr) : Prop where
  ids : s'.ids = s.ids
  focus : s'.focus = s.focus
  live : ∀ z, s'.mem z = none ↔ s.mem z = none
  head : s'.head = s.head
  count : s'.count = s.count
  nextId : s'.nextId = s.nextId

theorem mem_of_head? {ps : List Nat} {p : Nat} (h : ps.head? = some p) : p ∈ ps :=
  List.mem_of_mem_head? h

theorem mem_of_getLast? {ps : List Nat} {p : Nat} (h : ps.getLast? = some p) : p ∈ ps :=
  List.mem_of_mem_getLast? h

-- Wherever `p` is in the list, `unlink` takes it out.
theorem unlink_spec {s : WndMgr} {pre post : List Nat} {p : Nat}
    (hlinks : Linked s.next s.prev none (pre ++ p :: post) none) (hnd : (pre ++ p :: post).Nodup)
    (hlive : ∀ z ∈ pre ++ p :: post, s.mem z ≠ none) :
    ∃ s', unlink s p = some s' ∧ Relinked s s' ∧ s'.mem p = s.mem p ∧ s'.next p = post.head? ∧
      Linked s'.next s'.prev none (pre ++ post) none := by
  have hnodup := hnd
  rw [List.nodup_append, List.nodup_cons] at hnodup
  obtain ⟨-, ⟨hpost, -⟩, hdisj⟩ := hnodup
  have hpre : p ∉ pre := fun hmem => hdisj p hmem p List.mem_cons_self rfl
  have hcross : ∀ z ∈ pre, z ∉ post := fun z hz hz' => hdisj z hz z (List.mem_cons_of_mem _ hz') rfl
  have hlinks' := hlinks
  rw [linked_append, linked_cons] at hlinks'
  obtain ⟨-, hprev, hnext, -⟩ := hlinks'
  simp only [Option.or_none] at hprev hnext
  obtain ⟨wnd, hwnd⟩ := Option.ne_none_iff_exists'.mp (hlive p (by simp))
  have hwprev : wnd.prev = pre.getLast? := by rw [← hprev, WndMgr.prev, hwnd]; rfl
  have hwnext : wnd.next = post.head? := by rw [← hnext, WndMgr.next, hwnd]; rfl
  have hpl : some p ≠ pre.getLast? := fun h => hpre (mem_of_getLast? h.symm)
  have hph : some p ≠ post.head? := fun h => hpost (mem_of_head? h.symm)
  -- the two writes
  let s₁ := s.put pre.getLast? fun v => { v with next := post.head? }
  let s₂ := s₁.put post.head? fun v => { v with prev := pre.getLast? }
  have hmem₁ : s₁.mem p = some wnd := (WndMgr.put_mem_of_ne hpl).trans hwnd
  have hwrite₁ : s.writeIf wnd.prev (fun v => { v with next := wnd.next }) = some s₁ := by
    rw [hwprev, hwnext]
    exact WndMgr.writeIf_of_live _ fun z hz => hlive z (by simp [mem_of_getLast? hz])
  have hwrite₂ : s₁.writeIf wnd.next (fun v => { v with prev := wnd.prev }) = some s₂ := by
    rw [hwprev, hwnext]
    refine WndMgr.writeIf_of_live _ fun z hz => ?_
    rw [Ne, WndMgr.put_live]
    exact hlive z (by simp [mem_of_head? hz])
  have hnext₂ : s₂.next = s₁.next := WndMgr.put_next fun _ => rfl
  have hprev₁ : s₁.prev = s.prev := WndMgr.put_prev fun _ => rfl
  have hids₁ : s₁.ids = s.ids := WndMgr.put_ids fun _ => rfl
  have hids₂ : s₂.ids = s₁.ids := WndMgr.put_ids fun _ => rfl
  have hfocus₁ : s₁.focus = s.focus := WndMgr.put_focus fun _ => rfl
  have hfocus₂ : s₂.focus = s₁.focus := WndMgr.put_focus fun _ => rfl
  refine ⟨s₂, ?_, ⟨hids₂.trans hids₁, hfocus₂.trans hfocus₁, ?_, rfl, rfl, rfl⟩, ?_, ?_, ?_⟩
  · rw [unlink]
    simp only [hwnd, hwrite₁, hmem₁, Option.bind_eq_bind, Option.bind_some]
    exact hwrite₂
  · intro z
    rw [WndMgr.put_live, WndMgr.put_live]
  · rw [WndMgr.put_mem_of_ne hph, WndMgr.put_mem_of_ne hpl]
  · rw [hnext₂, WndMgr.put_next_of_ne hpl, hnext]
  · apply hlinks.remove hnd
    · intro z hz
      rw [Option.mem_def] at hz
      rw [hnext₂, Option.or_none]
      simp only [s₁, hz]
      exact WndMgr.put_next_self (hlive z (by simp [mem_of_getLast? hz])) fun _ => rfl
    · intro z hz
      rw [Option.mem_def] at hz
      rw [Option.or_none]
      simp only [s₂, hz]
      refine WndMgr.put_prev_self ?_ fun _ => rfl
      rw [Ne, WndMgr.put_live]
      exact hlive z (by simp [mem_of_head? hz])
    · intro z hz
      refine ⟨?_, fun hlast => ?_⟩
      · rw [WndMgr.put_prev_of_ne fun h => hcross z hz (mem_of_head? h.symm), hprev₁]
      · rw [hnext₂, WndMgr.put_next_of_ne fun h => hlast h.symm]
    · intro z hz
      refine ⟨?_, fun hhead => ?_⟩
      · rw [hnext₂, WndMgr.put_next_of_ne fun h => hcross z (mem_of_getLast? h.symm) hz]
      · rw [WndMgr.put_prev_of_ne fun h => hhead h.symm, hprev₁]

-- A window that is linked in before the first one.
theorem push_linked {s : WndMgr} {xs : List Nat} {p : Nat} {f g : Wnd → Wnd}
    (hlinks : Linked s.next s.prev none xs none) (hnd : (p :: xs).Nodup)
    (hlive : ∀ z ∈ p :: xs, s.mem z ≠ none) (hfn : ∀ v, (f v).next = xs.head?)
    (hfp : ∀ v, (f v).prev = none) (hgn : ∀ v, (g v).next = v.next)
    (hgp : ∀ v, (g v).prev = some p) :
    Linked ((s.put (some p) f).put xs.head? g).next ((s.put (some p) f).put xs.head? g).prev none
      (p :: xs) none := by
  obtain ⟨hp, hxs⟩ := List.nodup_cons.mp hnd
  have hhead : some p ≠ xs.head? := fun h => hp (mem_of_head? h.symm)
  have hne : ∀ z ∈ xs, some z ≠ some p := by
    rintro z hz heq
    obtain rfl := Option.some.inj heq
    exact hp hz
  have hplive := hlive p List.mem_cons_self
  apply hlinks.push hxs
  · rw [WndMgr.put_next hgn, Option.or_none]
    exact WndMgr.put_next_self hplive hfn
  · rw [WndMgr.put_prev_of_ne hhead]
    exact WndMgr.put_prev_self hplive hfp
  · intro z hz
    rw [Option.mem_def] at hz
    rw [hz]
    apply WndMgr.put_prev_self _ hgp
    rw [Ne, WndMgr.put_live]
    exact hlive z (List.mem_cons_of_mem _ (mem_of_head? hz))
  · intro z hz
    refine ⟨?_, fun hnot => ?_⟩
    · rw [WndMgr.put_next hgn, WndMgr.put_next_of_ne (hne z hz)]
    · rw [WndMgr.put_prev_of_ne fun h => hnot h.symm, WndMgr.put_prev_of_ne (hne z hz)]

-- The search of `top_wnd` ends and is right.
theorem search_spec {s : WndMgr} {before : Option Nat} {ps : List Nat} {p fuel : Nat}
    (hlinks : Linked s.next s.prev before ps none) (hlive : ∀ z ∈ ps, s.mem z ≠ none)
    (hfuel : ps.length < fuel) : search s p fuel ps.head? = some (decide (p ∈ ps)) := by
  induction ps generalizing before fuel with
  | nil =>
      obtain ⟨n, rfl⟩ := Nat.exists_eq_add_of_lt hfuel
      simp [search]
  | cons c ps ih =>
      obtain ⟨n, rfl⟩ : ∃ n, fuel = n + 1 := ⟨fuel - 1, by omega⟩
      obtain ⟨-, hnext, hrest⟩ := hlinks
      obtain ⟨v, hv⟩ := Option.ne_none_iff_exists'.mp (hlive c List.mem_cons_self)
      rw [List.head?_cons, search]
      by_cases hc : c = p
      · simp [hc]
      · have hvnext : v.next = ps.head? := by
          rw [Option.or_none] at hnext
          rw [← hnext, WndMgr.next, hv]
          rfl
        rw [if_neg hc, hv, Option.bind_some, hvnext,
          ih hrest (fun z hz => hlive z (List.mem_cons_of_mem _ hz))
            (by simp only [List.length_cons] at hfuel; omega)]
        simp [Ne.symm hc]

-- The walk of `wnd_cycle_focus` ends at the last window.
theorem lastWnd_spec {s : WndMgr} {before : Option Nat} {ps : List Nat} {p fuel : Nat}
    (hlinks : Linked s.next s.prev before (p :: ps) none)
    (hlive : ∀ z ∈ p :: ps, s.mem z ≠ none) (hfuel : ps.length < fuel) :
    lastWnd s fuel p = (p :: ps).getLast? := by
  induction ps generalizing before p fuel with
  | nil =>
      obtain ⟨n, rfl⟩ : ∃ n, fuel = n + 1 := ⟨fuel - 1, by omega⟩
      obtain ⟨v, hv⟩ := Option.ne_none_iff_exists'.mp (hlive p List.mem_cons_self)
      have hvnext : s.next p = none := hlinks.2.1
      rw [WndMgr.next, hv, Option.bind_some] at hvnext
      simp [lastWnd, hv, hvnext]
  | cons q ps ih =>
      obtain ⟨n, rfl⟩ : ∃ n, fuel = n + 1 := ⟨fuel - 1, by omega⟩
      obtain ⟨v, hv⟩ := Option.ne_none_iff_exists'.mp (hlive p List.mem_cons_self)
      have hvnext : v.next = some q := by
        have hnext : s.next p = some q := hlinks.2.1
        rw [← hnext, WndMgr.next, hv]
        rfl
      rw [lastWnd, hv, Option.bind_some]
      simp only [hvnext]
      rw [ih hlinks.2.2 (fun z hz => hlive z (List.mem_cons_of_mem _ hz))
        (by simp only [List.length_cons] at hfuel; omega), List.getLast?_cons_cons]

-- The windows from the head on, each linked to the next and back.
structure Chain (s : WndMgr) (ps : List Nat) : Prop where
  head : s.head = ps.head?
  links : Linked s.next s.prev none ps none
  nodup : ps.Nodup
  live : ∀ p ∈ ps, s.mem p ≠ none
  count : ps.length ≤ s.count

-- A window further back comes to the front, and the focus with it.
theorem Chain.top {s : WndMgr} {pre post : List Nat} {p : Nat} (h : Chain s (pre ++ p :: post))
    (hpre : pre ≠ []) :
    ∃ s', topWnd s (some p) = some (s', E_OK) ∧ Chain s' (p :: (pre ++ post)) ∧
      s'.ids = s.ids ∧ (∀ z, s'.mem z = none ↔ s.mem z = none) ∧ s'.count = s.count ∧
      s'.nextId = s.nextId ∧ ∀ z, s.mem z ≠ none → s'.focus z =
        if some z = some p then some true
        else if some z = s.head then some false else s.focus z := by
  have hmem : p ∈ pre ++ p :: post := by simp
  have hperm : (pre ++ p :: post).Perm (p :: (pre ++ post)) := List.perm_middle
  have hnd := hperm.nodup_iff.mp h.nodup
  have hp := (List.nodup_cons.mp hnd).1
  have hhead : (pre ++ post).head? = (pre ++ p :: post).head? := by
    cases pre with
    | nil => exact absurd rfl hpre
    | cons => rfl
  have hnotHead : s.head ≠ some p := by
    rw [h.head, ← hhead]
    exact fun heq => hp (mem_of_head? heq)
  obtain ⟨s₁, hunlink, hrel, -, -, hlinks⟩ := unlink_spec h.links h.nodup h.live
  have hhead₁ : s₁.head = (pre ++ post).head? := by rw [hrel.head, h.head, hhead]
  have hlive₁ : ∀ z ∈ p :: (pre ++ post), s₁.mem z ≠ none := fun z hz => by
    rw [Ne, hrel.live]
    exact h.live z (hperm.mem_iff.mpr hz)
  -- the four writes that follow
  let s₂ := s₁.put (pre ++ post).head? fun v => { v with focused := false }
  let s₃ := s₂.put (some p) fun v => { v with next := (pre ++ post).head?, prev := none }
  let s₄ := s₃.put (pre ++ post).head? fun v => { v with prev := some p }
  let s₅ := ({ s₄ with head := some p } : WndMgr).put (some p) fun v => { v with focused := true }
  have hlive₂ : ∀ z ∈ p :: (pre ++ post), s₂.mem z ≠ none := fun z hz => by
    rw [Ne, WndMgr.put_live]
    exact hlive₁ z hz
  have hlive₃ : ∀ z ∈ p :: (pre ++ post), s₃.mem z ≠ none := fun z hz => by
    rw [Ne, WndMgr.put_live]
    exact hlive₂ z hz
  have hlive₄ : ∀ z, s₄.mem z = none ↔ s.mem z = none := fun z => by
    rw [WndMgr.put_live, WndMgr.put_live, WndMgr.put_live, hrel.live]
  have hlinks₂ : Linked s₂.next s₂.prev none (pre ++ post) none := by
    have hnext : s₂.next = s₁.next := WndMgr.put_next fun _ => rfl
    have hprev : s₂.prev = s₁.prev := WndMgr.put_prev fun _ => rfl
    rw [hnext, hprev]
    exact hlinks
  have hids : s₅.ids = s.ids := by
    have hids₂ : s₂.ids = s₁.ids := WndMgr.put_ids fun _ => rfl
    have hids₃ : s₃.ids = s₂.ids := WndMgr.put_ids fun _ => rfl
    have hids₄ : s₄.ids = s₃.ids := WndMgr.put_ids fun _ => rfl
    have hids₅ : s₅.ids = s₄.ids := WndMgr.put_ids fun _ => rfl
    rw [hids₅, hids₄, hids₃, hids₂, hrel.ids]
  refine ⟨s₅, ?_, ⟨rfl, ?_, hnd, ?_, ?_⟩, hids, fun z => ?_, hrel.count, hrel.nextId, ?_⟩
  · have hfound : search s p (s.count + 1) s.head = some true := by
      have hcount := h.count
      rw [h.head, search_spec h.links h.live (by omega), decide_eq_true hmem]
    have hw₂ : s₁.writeIf (pre ++ post).head? (fun v => { v with focused := false }) = some s₂ :=
      WndMgr.writeIf_of_live _ fun z hz => hlive₁ z (List.mem_cons_of_mem _ (mem_of_head? hz))
    have hw₃ : s₂.write p (fun v => { v with next := (pre ++ post).head?, prev := none }) =
        some s₃ := WndMgr.write_of_live _ (hlive₂ p List.mem_cons_self)
    have hw₄ : s₃.writeIf (pre ++ post).head? (fun v => { v with prev := some p }) = some s₄ :=
      WndMgr.writeIf_of_live _ fun z hz => hlive₃ z (List.mem_cons_of_mem _ (mem_of_head? hz))
    have hw₅ : ({ s₄ with head := some p } : WndMgr).write p
        (fun v => { v with focused := true }) = some s₅ :=
      WndMgr.write_of_live _ fun hnone => h.live p hmem ((hlive₄ p).mp hnone)
    have hhead₂ : s₂.head = (pre ++ post).head? := hhead₁
    have hhead₃ : s₃.head = (pre ++ post).head? := hhead₁
    rw [topWnd, if_neg hnotHead]
    simp only [hfound, hunlink, Option.bind_eq_bind, Option.bind_some, Bool.not_true,
      Bool.false_eq_true, if_false, hhead₁, hw₂, hhead₂, hw₃, hhead₃, hw₄, hw₅]
  · have hnext : s₅.next = s₄.next := WndMgr.put_next fun _ => rfl
    have hprev : s₅.prev = s₄.prev := WndMgr.put_prev fun _ => rfl
    rw [hnext, hprev]
    exact push_linked hlinks₂ hnd hlive₂ (fun _ => rfl) (fun _ => rfl) (fun _ => rfl)
      fun _ => rfl
  · intro z hz
    rw [Ne, WndMgr.put_live]
    exact fun hnone => h.live z (hperm.mem_iff.mpr hz) ((hlive₄ z).mp hnone)
  · show _ ≤ s₁.count
    rw [hrel.count, ← hperm.length_eq]
    exact h.count
  · rw [WndMgr.put_live]
    exact hlive₄ z
  · intro z hz
    have hz₁ : s₁.mem z ≠ none := fun hnone => hz ((hrel.live z).mp hnone)
    have hfocus₂ : s₂.focus z = if some z = (pre ++ post).head? then some false else s₁.focus z :=
      WndMgr.put_focus_eq (fun _ => rfl) hz₁
    have hfocus₃ : s₃.focus = s₂.focus := WndMgr.put_focus fun _ => rfl
    have hfocus₄ : s₄.focus = s₃.focus := WndMgr.put_focus fun _ => rfl
    have hfocus₅ : s₅.focus z = if some z = some p then some true else s₄.focus z :=
      WndMgr.put_focus_eq (fun _ => rfl) fun hnone => hz ((hlive₄ z).mp hnone)
    rw [hfocus₅, hfocus₄, hfocus₃, hfocus₂, hrel.focus, h.head, hhead]

namespace Represents

variable {s s' : WndMgr} {ps pre post : List Nat} {p : Nat}

-- Writes to other fields leave the list as it is.
theorem of_same (h : Represents s ps) (hrel : Relinked s s') (hnext : s'.next = s.next)
    (hprev : s'.prev = s.prev) : Represents s' ps := by
  constructor
  · rw [hrel.head, h.head]
  · rw [hnext, hprev]
    exact h.links
  · exact h.nodup
  · intro p
    rw [Ne, hrel.live, ← Ne, h.live]
  · rw [hrel.count, h.count]
  · rw [hrel.ids]
    exact h.distinct
  · rw [hrel.ids, hrel.nextId]
    exact h.fresh
  · rw [hrel.focus]
    exact h.focus

theorem all_live (h : Represents s ps) : ∀ z ∈ ps, s.mem z ≠ none := fun z hz => (h.live z).mpr hz

-- The ids stay different when the counter gives one to a new window.
theorem alloc_ids (h : Represents s ps) (wnd : Wnd) (hid : wnd.id = s.nextId) :
    (∀ a b i, (s.alloc p wnd).ids a = some i → (s.alloc p wnd).ids b = some i → a = b) ∧
      ∀ a i, (s.alloc p wnd).ids a = some i → i < s.nextId + 1 := by
  have hcases : ∀ {a i}, (s.alloc p wnd).ids a = some i →
      (a = p ∧ i = s.nextId) ∨ s.ids a = some i ∧ i < s.nextId := by
    intro a i ha
    rw [WndMgr.ids, WndMgr.alloc] at ha
    simp only at ha
    split at ha
    · rename_i hap
      rw [Option.map_some, hid] at ha
      exact .inl ⟨hap, (Option.some.inj ha).symm⟩
    · exact .inr ⟨ha, h.fresh a i ha⟩
  constructor
  · intro a b i ha hb
    obtain ⟨rfl, hai⟩ | ⟨ha, hai⟩ := hcases ha
    · obtain ⟨rfl, -⟩ | ⟨-, hbi⟩ := hcases hb
      · rfl
      · omega
    · obtain ⟨-, hbi⟩ | ⟨hb, -⟩ := hcases hb
      · omega
      · exact h.distinct a b i ha hb
  · intro a i ha
    obtain ⟨-, hai⟩ | ⟨-, hai⟩ := hcases ha
    · omega
    · omega

theorem opn (h : Represents s ps) (hfree : s.mem p = none) (hid : s.nextId < 2147483647)
    (title : Option (Nat → UB)) (x y w ht : Int) (attr : Nat) (mem : Bool) :
    ∃ s', opnWnd s (some p) title x y w ht attr mem = some (s', some p) ∧
      Represents s' (p :: ps) := by
  have hp : p ∉ ps := fun hmem => h.all_live p hmem hfree
  have hne : ∀ z ∈ ps, z ≠ p := by
    rintro z hz rfl
    exact hp hz
  have hnd : (p :: ps).Nodup := List.nodup_cons.mpr ⟨hp, h.nodup⟩
  let wnd := newWnd s.nextId title x y w ht attr mem
  let s₁ : WndMgr := { s.alloc p wnd with nextId := s.nextId + 1 }
  let s₂ := s₁.put (some p) fun v => { v with next := ps.head?, prev := none }
  let s₃ := s₂.put ps.head? fun v => { v with focused := false, prev := some p }
  have hmem₁ : s₁.mem p = some wnd := if_pos rfl
  have hother : ∀ z, z ≠ p → s₁.mem z = s.mem z := fun z hz => if_neg hz
  have hlive₁ : ∀ z ∈ p :: ps, s₁.mem z ≠ none := by
    intro z hz
    obtain rfl | hz := List.mem_cons.mp hz
    · simp [hmem₁]
    · rw [hother z (hne z hz)]
      exact h.all_live z hz
  have hlinks₁ : Linked s₁.next s₁.prev none ps none := h.links.congr fun z hz => by
    rw [WndMgr.next, WndMgr.prev, hother z (hne z hz)]
    exact ⟨rfl, rfl⟩
  have hids₂ : s₂.ids = s₁.ids := WndMgr.put_ids fun _ => rfl
  have hids₃ : s₃.ids = s₂.ids := WndMgr.put_ids fun _ => rfl
  have hfocus₂ : s₂.focus = s₁.focus := WndMgr.put_focus fun _ => rfl
  obtain ⟨hdistinct, hfresh⟩ := h.alloc_ids (p := p) wnd rfl
  refine ⟨{ s₃ with head := some p }, ?_, ⟨rfl, ?_, hnd, ?_, ?_, ?_, ?_, ?_⟩⟩
  · have hwrite : s₂.writeIf ps.head? (fun v => { v with focused := false, prev := some p }) =
        some s₃ := by
      refine WndMgr.writeIf_of_live _ fun z hz => ?_
      rw [Ne, WndMgr.put_live]
      exact hlive₁ z (List.mem_cons_of_mem _ (mem_of_head? hz))
    have hhead₁ : s₁.head = ps.head? := h.head
    have hhead₂ : s₂.head = ps.head? := h.head
    rw [opnWnd, if_neg (by omega)]
    simp only [Option.bind_eq_bind]
    change (s₁.write p fun v => { v with next := s₁.head, prev := none }).bind _ = _
    rw [WndMgr.write_of_live _ (hlive₁ p List.mem_cons_self), hhead₁, Option.bind_some]
    change (s₂.writeIf s₂.head _).bind _ = _
    rw [hhead₂, hwrite]
    rfl
  · exact push_linked hlinks₁ hnd hlive₁ (fun _ => rfl) (fun _ => rfl) (fun _ => rfl)
      fun _ => rfl
  · intro z
    show s₃.mem z ≠ none ↔ _
    rw [Ne, WndMgr.put_live, WndMgr.put_live]
    by_cases hz : z = p
    · subst hz
      simp [hmem₁]
    · rw [hother z hz, ← Ne, h.live z, List.mem_cons]
      simp [hz]
  · show s.count + 1 = _
    rw [h.count, List.length_cons]
  · show ∀ a b i, s₃.ids a = some i → s₃.ids b = some i → a = b
    rw [hids₃, hids₂]
    exact hdistinct
  · show ∀ a i, s₃.ids a = some i → i < s.nextId + 1
    rw [hids₃, hids₂]
    exact hfresh
  · intro z hz
    show s₃.focus z = _
    have hzlive : s₂.mem z ≠ none := by
      rw [Ne, WndMgr.put_live]
      exact hlive₁ z hz
    have hfocus₃ : s₃.focus z = if some z = ps.head? then some false else s₂.focus z :=
      WndMgr.put_focus_eq (fun _ => rfl) hzlive
    rw [hfocus₃, hfocus₂]
    obtain rfl | hz := List.mem_cons.mp hz
    · rw [if_neg fun heq => hp (mem_of_head? heq.symm), WndMgr.focus, hmem₁]
      simp [wnd, newWnd]
    · have hzp := hne z hz
      rw [WndMgr.focus, hother z hzp, ← WndMgr.focus, h.focus z hz]
      by_cases hhead : ps.head? = some z
      · simp [hhead, Ne.symm hzp]
      · simp [hhead, Ne.symm hhead, Ne.symm hzp]

theorem chain (h : Represents s ps) : Chain s ps :=
  ⟨h.head, h.links, h.nodup, h.all_live, h.count ▸ Nat.le_refl _⟩

-- A window further back comes to the front.
theorem top (h : Represents s (pre ++ p :: post)) (hpre : pre ≠ []) :
    ∃ s', topWnd s (some p) = some (s', E_OK) ∧ Represents s' (p :: (pre ++ post)) := by
  have hperm : (pre ++ p :: post).Perm (p :: (pre ++ post)) := List.perm_middle
  obtain ⟨s', htop, hchain, hids, hlive, hcount, hnextId, hfocus⟩ := h.chain.top hpre
  refine ⟨s', htop, ⟨hchain.head, hchain.links, hchain.nodup, fun z => ?_, ?_, ?_, ?_, ?_⟩⟩
  · rw [Ne, hlive z, ← hperm.mem_iff]
    exact h.live z
  · rw [hcount, h.count, hperm.length_eq]
  · rw [hids]
    exact h.distinct
  · rw [hids, hnextId]
    exact h.fresh
  · intro z hz
    have hzmem : z ∈ pre ++ p :: post := hperm.mem_iff.mpr hz
    rw [hfocus z (h.all_live z hzmem), h.focus z hzmem, h.head]
    generalize (pre ++ p :: post).head? = first
    by_cases hzp : z = p
    · simp [hzp]
    · by_cases hzh : first = some z
      · simp [hzh, hzp, Ne.symm hzp]
      · simp [hzh, hzp, Ne.symm hzp, Ne.symm hzh]

-- Whatever the destroy hook does elsewhere, the list is as before.
theorem hook (h : Represents s ps) {mem' : Nat → Option Wnd} (hkeep : KeepsList s.mem mem') :
    Represents { s with mem := mem' } ps := by
  let view (v : Wnd) := (v.id, v.focused, v.next, v.prev)
  have hnext : ∀ m : Option Wnd, m.bind Wnd.next = (m.map view).bind (·.2.2.1) := by
    rintro (_ | _) <;> rfl
  have hprev : ∀ m : Option Wnd, m.bind Wnd.prev = (m.map view).bind (·.2.2.2) := by
    rintro (_ | _) <;> rfl
  have hids : ∀ m : Option Wnd, m.map Wnd.id = (m.map view).map (·.1) := by
    rintro (_ | _) <;> rfl
  have hfocus : ∀ m : Option Wnd, m.map Wnd.focused = (m.map view).map (·.2.1) := by
    rintro (_ | _) <;> rfl
  have hlive : ∀ m : Option Wnd, m = none ↔ m.map view = none := fun m => by simp
  have hview : ∀ z, (mem' z).map view = (s.mem z).map view := hkeep
  apply h.of_same
  · refine ⟨funext fun z => ?_, funext fun z => ?_, fun z => ?_, rfl, rfl, rfl⟩
    · rw [WndMgr.ids, WndMgr.ids, hids, hview, ← hids]
    · rw [WndMgr.focus, WndMgr.focus, hfocus, hview, ← hfocus]
    · rw [hlive, hview, ← hlive]
  · funext z
    rw [WndMgr.next, WndMgr.next, hnext, hview, ← hnext]
  · funext z
    rw [WndMgr.prev, WndMgr.prev, hprev, hview, ← hprev]

-- What is left when the window at `p`, wherever it is, leaves the list and is freed.
theorem cut (h : Represents s (pre ++ p :: post)) :
    ∃ s', (do
        let s ← unlink s p
        let wnd ← s.mem p
        let s := if s.head = some p then { s with head := wnd.next } else s
        let s ← s.writeIf s.head fun v => { v with focused := true }
        some (s.free p, E_OK)) = some (s', E_OK) ∧ Represents s' (pre ++ post) := by
  have hmem : p ∈ pre ++ p :: post := by simp
  have hperm : (pre ++ p :: post).Perm (p :: (pre ++ post)) := List.perm_middle
  obtain ⟨hp, hnd⟩ := List.nodup_cons.mp (hperm.nodup_iff.mp h.nodup)
  have hne : ∀ z ∈ pre ++ post, z ≠ p := by
    rintro z hz rfl
    exact hp hz
  obtain ⟨s₁, hunlink, hrel, hmem₁, hnext₁, hlinks⟩ := unlink_spec h.links h.nodup h.all_live
  have hlive₁ : ∀ z ∈ pre ++ post, s₁.mem z ≠ none := fun z hz => by
    rw [Ne, hrel.live]
    exact h.all_live z (hperm.mem_iff.mpr (List.mem_cons_of_mem _ hz))
  obtain ⟨wnd, hwnd⟩ := Option.ne_none_iff_exists'.mp (h.all_live p hmem)
  have hwnd₁ : s₁.mem p = some wnd := hmem₁.trans hwnd
  have hwnext : wnd.next = post.head? := by
    rw [← hnext₁, WndMgr.next, hwnd₁]
    rfl
  -- the head moves on when it was `p`
  let s₂ : WndMgr := { s₁ with head := (pre ++ post).head? }
  let s₃ := s₂.put (pre ++ post).head? fun v => { v with focused := true }
  have hhead₁ : s₁.head = (pre ++ p :: post).head? := hrel.head.trans h.head
  have hs₂ : (if s₁.head = some p then { s₁ with head := wnd.next } else s₁) = s₂ := by
    cases pre with
    | nil =>
        rw [if_pos (by simpa using hhead₁), hwnext]
        rfl
    | cons q pre =>
        have hqp : q ≠ p := hne q (by simp)
        rw [if_neg (by simpa [hhead₁] using hqp)]
        have hhead : s₁.head = some q := by simpa using hhead₁
        simp only [s₂, List.cons_append, List.head?_cons, ← hhead]
  have hw₃ : s₂.writeIf (pre ++ post).head? (fun v => { v with focused := true }) = some s₃ :=
    WndMgr.writeIf_of_live _ fun z hz => hlive₁ z (mem_of_head? hz)
  have hids₃ : s₃.ids = s.ids := by
    have hids : s₃.ids = s₂.ids := WndMgr.put_ids fun _ => rfl
    rw [hids, ← hrel.ids]
    rfl
  have hfree : ∀ {z}, z ≠ p → (s₃.free p).mem z = s₃.mem z := fun hz => if_neg hz
  have hids_free : ∀ {a i}, (s₃.free p).ids a = some i → s.ids a = some i := by
    intro a i ha
    by_cases hap : a = p
    · simp [WndMgr.ids, WndMgr.free, hap] at ha
    · rw [WndMgr.ids, hfree hap] at ha
      rw [← hids₃]
      exact ha
  refine ⟨s₃.free p, ?_, ⟨rfl, ?_, hnd, ?_, ?_, ?_, ?_, ?_⟩⟩
  · simp only [hunlink, hwnd₁, Option.bind_eq_bind, Option.bind_some, hs₂]
    show (s₂.writeIf (pre ++ post).head? _).bind _ = _
    rw [hw₃]
    rfl
  · apply hlinks.congr
    intro z hz
    have hnext : s₃.next = s₂.next := WndMgr.put_next fun _ => rfl
    have hprev : s₃.prev = s₂.prev := WndMgr.put_prev fun _ => rfl
    have hz' := hne z hz
    refine ⟨?_, ?_⟩
    · rw [WndMgr.next, hfree hz', ← WndMgr.next, hnext]
      rfl
    · rw [WndMgr.prev, hfree hz', ← WndMgr.prev, hprev]
      rfl
  · intro z
    by_cases hzp : z = p
    · subst hzp
      simp [WndMgr.free, hp]
    · rw [hfree hzp, Ne, WndMgr.put_live]
      show ¬s₁.mem z = none ↔ _
      rw [hrel.live, ← Ne, h.live, hperm.mem_iff, List.mem_cons]
      simp [hzp]
  · show s₁.count - 1 = _
    rw [hrel.count, h.count, hperm.length_eq, List.length_cons, Nat.add_sub_cancel]
  · exact fun a b i ha hb => h.distinct a b i (hids_free ha) (hids_free hb)
  · show ∀ a i, _ → i < s₁.nextId
    rw [hrel.nextId]
    exact fun a i ha => h.fresh a i (hids_free ha)
  · intro z hz
    have hz' := hne z hz
    have hzmem : z ∈ pre ++ p :: post := hperm.mem_iff.mpr (List.mem_cons_of_mem _ hz)
    have hfocus₃ : s₃.focus z = if some z = (pre ++ post).head? then some true else s₂.focus z :=
      WndMgr.put_focus_eq (fun _ => rfl) (hlive₁ z hz)
    have hfocus₂ : s₂.focus = s.focus := hrel.focus
    rw [WndMgr.focus, hfree hz', ← WndMgr.focus, hfocus₃, hfocus₂, h.focus z hzmem]
    by_cases hzh : (pre ++ post).head? = some z
    · simp only [hzh, if_true, decide_true]
    · rw [if_neg (Ne.symm hzh), decide_eq_false hzh, decide_eq_false]
      cases pre with
      | nil => simpa using Ne.symm hz'
      | cons q pre => simpa using hzh

theorem cls (h : Represents s (pre ++ p :: post))
    {hook : (Nat → Option Wnd) → Nat → Option Wnd} (hkeep : KeepsList s.mem (hook s.mem)) :
    ∃ s', clsWnd s (some p) hook = some (s', E_OK) ∧ Represents s' (pre ++ post) := by
  obtain ⟨wnd, hwnd⟩ := Option.ne_none_iff_exists'.mp (h.all_live p (by simp))
  rw [clsWnd]
  simp only [hwnd, Option.bind_eq_bind, Option.bind_some]
  by_cases hdestroy : wnd.destroy ≠ 0
  · rw [if_pos hdestroy]
    exact (h.hook hkeep).cut
  · rw [if_neg hdestroy]
    exact h.cut

theorem top_head (h : Represents s (p :: ps)) : topWnd s (some p) = some (s, E_OK) := by
  have hhead : s.head = some p := h.head
  rw [topWnd, if_pos hhead]

theorem top_absent (h : Represents s ps) (hp : p ∉ ps) : topWnd s (some p) = some (s, E_PAR) := by
  have hnotHead : s.head ≠ some p := by
    rw [h.head]
    exact fun heq => hp (mem_of_head? heq)
  rw [topWnd, if_neg hnotHead, h.head, search_spec h.links h.all_live (by rw [h.count]; omega),
    decide_eq_false hp]
  rfl

end Represents

-- What a call does to the list of windows.
def Act.apply (ps : List Nat) : Act → List Nat
  | .opn (some p) .. => p :: ps
  | .opn none .. => ps
  | .cls (some p) _ => ps.erase p
  | .cls none _ => ps
  | .top (some p) => if p ∈ ps then p :: ps.erase p else ps
  | .top none => ps
  | .cycle =>
    match ps.getLast? with
    | some p => p :: ps.erase p
    | none => ps

-- The id counter has room for the window to open.
def Act.InRange (s : WndMgr) : Act → Prop
  | .opn .. => s.nextId < 2147483647
  | .cls .. | .top _ | .cycle => True

theorem erase_middle {pre post : List Nat} {p : Nat} (h : p ∉ pre) :
    (pre ++ p :: post).erase p = pre ++ post := by
  rw [List.erase_append_right _ h, List.erase_cons_head]

theorem Represents.topWnd_spec {s : WndMgr} {ps : List Nat} (h : Represents s ps)
    (wnd : Option Nat) :
    ∃ s' er, topWnd s wnd = some (s', er) ∧ Represents s' ((Act.top wnd).apply ps) := by
  cases wnd with
  | none => exact ⟨s, E_OK, rfl, h⟩
  | some p =>
      by_cases hp : p ∈ ps
      · rw [Act.apply, if_pos hp]
        obtain ⟨pre, post, rfl⟩ := List.append_of_mem hp
        have hnot : p ∉ pre := fun hmem =>
          (List.nodup_append.mp h.nodup).2.2 p hmem p List.mem_cons_self rfl
        rw [erase_middle hnot]
        by_cases hpre : pre = []
        · subst hpre
          exact ⟨s, E_OK, h.top_head, h⟩
        · obtain ⟨s', hs', hr'⟩ := h.top hpre
          exact ⟨s', E_OK, hs', hr'⟩
      · rw [Act.apply, if_neg hp]
        exact ⟨s, E_PAR, h.top_absent hp, h⟩

theorem Represents.cycle_spec {s : WndMgr} {ps : List Nat} (h : Represents s ps) :
    ∃ s', wndCycleFocus s = some s' ∧ Represents s' (Act.cycle.apply ps) := by
  have hhead := h.head
  match ps with
  | [] =>
      rw [wndCycleFocus, hhead]
      exact ⟨s, rfl, h⟩
  | [p] =>
      obtain ⟨wnd, hwnd⟩ := Option.ne_none_iff_exists'.mp (h.all_live p List.mem_cons_self)
      have hnext : s.next p = none := h.links.2.1
      rw [WndMgr.next, hwnd, Option.bind_some] at hnext
      refine ⟨s, ?_, by simpa [Act.apply] using h⟩
      rw [wndCycleFocus, hhead]
      simp [hwnd, hnext]
  | p :: q :: ps =>
      obtain ⟨wnd, hwnd⟩ := Option.ne_none_iff_exists'.mp (h.all_live p List.mem_cons_self)
      have hnext : s.next p = some q := h.links.2.1
      rw [WndMgr.next, hwnd, Option.bind_some] at hnext
      obtain ⟨l, hl⟩ : ∃ l, (q :: ps).getLast? = some l :=
        ⟨_, List.getLast?_eq_some_getLast (List.cons_ne_nil q ps)⟩
      have hlast : (p :: q :: ps).getLast? = some l := by rw [List.getLast?_cons_cons, hl]
      have hlmem : l ∈ p :: q :: ps := mem_of_getLast? hlast
      have hlp : l ≠ p := by
        rintro rfl
        exact (List.nodup_cons.mp h.nodup).1 (mem_of_getLast? hl)
      have hwalk : lastWnd s s.count p = some l := by
        rw [lastWnd_spec h.links h.all_live (by rw [h.count]; simp), hlast]
      -- the write to `visible` touches no link
      let s₁ := s.put (some l) fun v => { v with visible := true }
      have hw : s.write l (fun v => { v with visible := true }) = some s₁ :=
        WndMgr.write_of_live _ (h.all_live l hlmem)
      have h₁ : Represents s₁ (p :: q :: ps) :=
        h.of_same ⟨WndMgr.put_ids fun _ => rfl, WndMgr.put_focus fun _ => rfl,
          fun _ => WndMgr.put_live, rfl, rfl, rfl⟩ (WndMgr.put_next fun _ => rfl)
          (WndMgr.put_prev fun _ => rfl)
      obtain ⟨s', er, htop, h'⟩ := h₁.topWnd_spec (some l)
      refine ⟨s', ?_, ?_⟩
      · rw [wndCycleFocus, hhead]
        simp [hwnd, hnext, hwalk, hlp, hw, htop]
      · have happly : Act.cycle.apply (p :: q :: ps) = (Act.top (some l)).apply (p :: q :: ps) := by
          simp only [Act.apply, hlast, if_pos hlmem]
        rwa [happly]

-- Every call is carried out, and does to the list what it should.
theorem exec_spec {s : WndMgr} {ps : List Nat} {a : Act} (h : Represents s ps) (hlegal : a.Legal s)
    (hrange : a.InRange s) : ∃ s', exec s a = some s' ∧ Represents s' (a.apply ps) := by
  cases a with
  | opn p title x y w ht attr mem =>
      cases p with
      | none => exact ⟨s, rfl, h⟩
      | some p =>
          obtain ⟨s', hs', h'⟩ := h.opn (hlegal p rfl) hrange title x y w ht attr mem
          exact ⟨s', by rw [exec, hs', Option.map_some], h'⟩
  | cls wnd hook =>
      cases wnd with
      | none => exact ⟨s, rfl, h⟩
      | some p =>
          obtain ⟨pre, post, rfl⟩ := List.append_of_mem ((h.live p).mp (hlegal.1 p rfl))
          have hnot : p ∉ pre := fun hmem =>
            (List.nodup_append.mp h.nodup).2.2 p hmem p List.mem_cons_self rfl
          obtain ⟨s', hs', h'⟩ := h.cls hlegal.2
          refine ⟨s', by rw [exec, hs', Option.map_some], ?_⟩
          rwa [Act.apply, erase_middle hnot]
  | top wnd =>
      obtain ⟨s', er, hs', h'⟩ := h.topWnd_spec wnd
      exact ⟨s', by rw [exec, hs', Option.map_some], h'⟩
  | cycle => exact h.cycle_spec

theorem step_spec {s s' : WndMgr} {ps : List Nat} {a : Act} (h : Represents s ps)
    (hstep : Step s a s') : Represents s' (a.apply ps) := by
  obtain ⟨hlegal, hexec⟩ := hstep
  have hspec : a.InRange s → Represents s' (a.apply ps) := by
    intro hrange
    obtain ⟨s'', hs'', h''⟩ := exec_spec h hlegal hrange
    obtain rfl := Option.some.inj (hexec.symm.trans hs'')
    exact h''
  cases a with
  | opn p =>
      cases p with
      | none =>
          obtain rfl := Option.some.inj hexec
          exact h
      | some p =>
          apply hspec
          by_contra hlarge
          rw [exec, opnWnd, if_pos (Int.not_lt.mp hlarge)] at hexec
          cases hexec
  | cls | top | cycle => exact hspec trivial

-- The windows opened and not yet closed in a run, front to back.
def opened (tr : List (WndMgr × Act)) : List Nat := tr.foldr (fun t ps => t.2.apply ps) []

theorem represents_init (n : Int) : Represents (.init n) [] := by
  constructor <;> simp [WndMgr.init, WndMgr.ids]

theorem represents_opened {n : Int} {tr : List (WndMgr × Act)} {s : WndMgr}
    (htr : Trace Step (.init n) tr s) : Represents s (opened tr) := by
  induction htr with
  | start => exact represents_init n
  | next _ hstep ih => exact step_spec ih hstep

-- All along a run the windows form a doubly linked list of those opened and not yet closed, its
-- head alone with the focus, and no call goes astray on it.
theorem windows_listed (n : Int) (tr : List (WndMgr × Act)) (s : WndMgr)
    (htr : Trace Step (.init n) tr s) :
    Represents s (opened tr) ∧
      (∀ p q, s.mem p ≠ none → s.mem q ≠ none → (s.next p = some q ↔ s.prev q = some p)) ∧
      ∀ a : Act, a.Legal s → a.InRange s → ∃ s', exec s a = some s' := by
  have h := represents_opened htr
  refine ⟨h, fun p q hp hq => ?_, fun a hlegal hrange => ?_⟩
  · exact ⟨fun hnext => (h.links.next_inverse h.nodup ((h.live p).mp hp) hnext).2,
      fun hprev => (h.links.prev_inverse h.nodup ((h.live q).mp hq) hprev).2⟩
  · obtain ⟨s', hs', -⟩ := exec_spec h hlegal hrange
    exact ⟨s', hs'⟩

-- A window is opened, and another one in front of it.
theorem windows_listed_two :
    ∃ tr s, Trace Step (.init 1) tr s ∧ opened tr = [200, 100] ∧ Represents s (opened tr) := by
  have hopen : ∀ {s : WndMgr} {ps : List Nat} {p : Nat}, Represents s ps → p ∉ ps →
      s.nextId < 2147483647 → ∃ s', Step s (.opn (some p) none 0 0 300 200 1 true) s' := by
    intro s ps p h hp hid
    have hlegal : (Act.opn (some p) none 0 0 300 200 1 true).Legal s := by
      intro a ha
      obtain rfl := Option.some.inj ha
      by_contra hlive
      exact hp ((h.live p).mp hlive)
    obtain ⟨s', hs', -⟩ := exec_spec h hlegal hid
    exact ⟨s', hlegal, hs'⟩
  obtain ⟨s₁, hstep₁⟩ := hopen (represents_init 1) (List.not_mem_nil (a := 100)) (by decide)
  have htr₁ := Trace.next .start hstep₁
  have hid : s₁.nextId = 2 := by
    obtain rfl := Option.some.inj hstep₁.2
    rfl
  obtain ⟨s₂, hstep₂⟩ := hopen (p := 200) (represents_opened htr₁) (by decide) (by omega)
  have htr₂ := htr₁.next hstep₂
  exact ⟨_, s₂, htr₂, rfl, (windows_listed 1 _ s₂ htr₂).1⟩

end BTron.Window

namespace BTron.Window

open Lib

-- So many calls of `wnd_cycle_focus`, and the window each of them leaves in front.
def cycles : Nat → WndMgr → Option (WndMgr × List Nat)
  | 0, s => some (s, [])
  | n + 1, s => do
    let s ← wndCycleFocus s
    let front ← s.head
    let (s, fronts) ← cycles n s
    some (s, front :: fronts)

-- A write to other fields leaves the chain as it is.
theorem Chain.put {s : WndMgr} {ps : List Nat} {q : Option Nat} {f : Wnd → Wnd} (h : Chain s ps)
    (hnext : ∀ v, (f v).next = v.next) (hprev : ∀ v, (f v).prev = v.prev) :
    Chain (s.put q f) ps := by
  refine ⟨h.head, ?_, h.nodup, fun p hp => ?_, h.count⟩
  · rw [WndMgr.put_next hnext, WndMgr.put_prev hprev]
    exact h.links
  · rw [Ne, WndMgr.put_live]
    exact h.live p hp

-- The last window comes to the front.
theorem Chain.cycle {s : WndMgr} {ps : List Nat} {l : Nat} (h : Chain s (ps ++ [l]))
    (hps : ps ≠ []) : ∃ s', wndCycleFocus s = some s' ∧ Chain s' (l :: ps) := by
  obtain ⟨p, ps, rfl⟩ := List.exists_cons_of_ne_nil hps
  have hhead : s.head = some p := h.head
  obtain ⟨wnd, hwnd⟩ := Option.ne_none_iff_exists'.mp (h.live p (by simp))
  have hnext : wnd.next ≠ none := by
    have hlink : s.next p = (ps ++ [l]).head?.or none := h.links.2.1
    rw [Option.or_none, WndMgr.next, hwnd, Option.bind_some] at hlink
    rw [hlink]
    simp
  have hwalk : lastWnd s s.count p = some l := by
    have hcount := h.count
    rw [List.cons_append, List.length_cons] at hcount
    have hlast : (p :: (ps ++ [l])).getLast? = some l := by
      rw [← List.cons_append, List.getLast?_append]
      rfl
    exact (lastWnd_spec h.links h.live hcount).trans hlast
  have hlp : l ≠ p := by
    rintro rfl
    exact (List.nodup_cons.mp h.nodup).1 (by simp)
  have hwrite : s.write l (fun v => { v with visible := true }) =
      some (s.put (some l) fun v => { v with visible := true }) :=
    WndMgr.write_of_live _ (h.live l (by simp))
  have hput : Chain (s.put (some l) fun v => { v with visible := true }) (p :: ps ++ [l]) :=
    h.put (fun _ => rfl) fun _ => rfl
  obtain ⟨s', htop, hchain, -⟩ := hput.top (List.cons_ne_nil p ps)
  rw [List.append_nil] at hchain
  refine ⟨s', ?_, hchain⟩
  rw [wndCycleFocus, hhead]
  simp [hwnd, hnext, hwalk, hlp, hwrite, htop]

-- As many calls as there are windows in `ys` bring these to the front, the last one first.
theorem Chain.cycles {s : WndMgr} {xs ys : List Nat} (h : Chain s (xs ++ ys))
    (hlen : 2 ≤ (xs ++ ys).length) :
    ∃ s', cycles ys.length s = some (s', ys.reverse) ∧ Chain s' (ys ++ xs) := by
  induction ys using List.reverseRecOn generalizing s xs with
  | nil =>
      rw [List.append_nil] at h
      exact ⟨s, rfl, h⟩
  | append_singleton ys l ih =>
      rw [← List.append_assoc] at h hlen
      have hne : xs ++ ys ≠ [] := by
        intro hnil
        rw [hnil] at hlen
        simp at hlen
      obtain ⟨s₁, hcycle, h₁⟩ := h.cycle hne
      have hlen₁ : 2 ≤ ((l :: xs) ++ ys).length := by
        rw [List.cons_append, List.length_cons]
        rwa [List.length_append, List.length_singleton] at hlen
      obtain ⟨s', hrest, h'⟩ := ih h₁ hlen₁
      refine ⟨s', ?_, by rwa [List.append_assoc]⟩
      have hhead : s₁.head = some l := h₁.head
      rw [List.length_append, List.length_singleton, Window.cycles]
      simp only [hcycle, Option.bind_eq_bind, Option.bind_some, hhead, hrest,
        List.reverse_append, List.reverse_singleton, List.singleton_append]

-- As many calls as there are windows bring every window to the front once, and leave the windows
-- in their order.
theorem cycle_returns {s : WndMgr} {ps : List Nat} (h : Chain s ps) (hlen : 2 ≤ ps.length) :
    ∃ s' fronts, cycles ps.length s = some (s', fronts) ∧
      (∀ p ∈ ps, fronts.count p = 1) ∧ fronts.length = ps.length ∧ Chain s' ps := by
  obtain ⟨s', hcycles, h'⟩ := @Chain.cycles s [] ps h hlen
  rw [List.append_nil] at h'
  refine ⟨s', ps.reverse, hcycles, fun p hp => ?_, List.length_reverse, h'⟩
  rw [List.count_reverse]
  exact List.count_eq_one_of_mem h.nodup hp

-- A window opened twice over an empty desk.
def twoWindows : WndMgr :=
  let wnd := newWnd 1 none 0 0 200 150 0 true
  ⟨fun p => if p = 0 then some { wnd with next := some 1 }
    else if p = 1 then some { wnd with id := 2, prev := some 0 } else none, 2, some 0, 3⟩

theorem chain_twoWindows : Chain twoWindows [0, 1] := by
  refine ⟨rfl, ⟨rfl, rfl, rfl, rfl, trivial⟩, by decide, ?_, by decide⟩
  simp [twoWindows]

theorem cycle_returns_two : ∃ s' fronts, cycles 2 twoWindows = some (s', fronts) ∧
    (∀ p ∈ [0, 1], fronts.count p = 1) ∧ fronts.length = 2 ∧ Chain s' [0, 1] :=
  cycle_returns chain_twoWindows (by decide)

end BTron.Window
