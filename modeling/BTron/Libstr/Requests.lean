import BTron.Libstr.Runs

namespace BTron.Libstr

open Lib Lib.Blocks

-- The bytes behind a pointer that belong to its block and to the pool.
def usable (t : Target) (h : Heap) (p : Nat) : Nat := min (capacity h p) (t.poolSize - p)

-- A request of so many bytes gets them, or NULL and the heap as it was.
def Meets (t : Target) (h : Heap) (requested : Nat) (r : Ptr × Heap) : Prop :=
  match r.1 with
  | some p => requested ≤ usable t r.2 p
  | none => r.2 = h

-- Neither the rounding nor the header nor the offset takes the sum past the largest size_t.
def NoWrap (t : Target) (h : Heap) (requested : Nat) : Prop :=
  requested = 0 ∨ requested + 15 < t.sizeMod ∧
    h.offset + headerSize + rounded requested < t.sizeMod

-- There is no block for the size as `Imalloc` computes it.
def Refused (t : Target) (h : Heap) (size : Nat) : Prop :=
  size = 0 ∨
    (∃ bs, Represents t h bs ∧ ∀ b ∈ bs, b.free → b.size < t.align size) ∧
      t.poolSize < t.add h.offset (t.align (t.add headerSize (t.align size)))

-- The exact number of bytes that a call asks for.
def Call.requested : Call → Nat
  | .imalloc size => size
  | .icalloc nmemb size => nmemb * size
  | .ifree _ => 0

-- Arguments are a size_t, and what is freed is NULL or live.
def Call.Typed (t : Target) (w : World) : Call → Prop
  | .imalloc size => size < t.sizeMod
  | .icalloc nmemb size => nmemb < t.sizeMod ∧ size < t.sizeMod
  | .ifree none => True
  | .ifree (some p) => p ∈ w.live.map Allocation.ptr

def Calls (t : Target) (w : World) (c : Call) (w' : World) : Prop :=
  c.Typed t w ∧ w.call t c = some w'

-- What the call does for what is asked.
def Call.Met (t : Target) (w : World) (c : Call) : Prop :=
  match c with
  | .imalloc size => ∃ r, Libstr.imalloc t w.heap size = some r ∧ Meets t w.heap size r
  | .icalloc nmemb size =>
    ∃ r, Libstr.icalloc t w.heap nmemb size = some r ∧ Meets t w.heap (nmemb * size) r
  | .ifree _ => True

-- No sum wraps around, or there is no room even for what it wraps around to.
def Call.Sound (t : Target) (w : World) (c : Call) : Prop :=
  match c with
  | .imalloc _ | .icalloc _ _ =>
    NoWrap t w.heap c.requested ∨ Refused t w.heap (c.requested % t.sizeMod)
  | .ifree _ => True

section Imalloc

variable {t : Target} {h h' : Heap} {bs : List Block} {n : Nat}

theorem noWrap_of_le (hr : Represents t h bs) (hn : n ≤ t.poolSize) : NoWrap t h n := by
  have hroom := t.room
  have htop := hr.top
  refine .inr ⟨by omega, ?_⟩
  unfold rounded headerSize
  omega

theorem NoWrap.lt {requested : Nat} (hwrap : NoWrap t h requested) : requested < t.sizeMod := by
  have hroom := t.room
  obtain rfl | ⟨hround, -⟩ := hwrap
  · omega
  · omega

-- A request that is larger than the pool is refused, where nothing wraps around.
theorem imalloc_large (hr : Represents t h bs) (hn : t.poolSize < n) (hwrap : NoWrap t h n) :
    imalloc t h n = some (none, h) := by
  obtain rfl | ⟨hround, hsum⟩ := hwrap
  · exact absurd hn (Nat.not_lt_zero _)
  have halign : t.align n = rounded n := align_eq t hround
  have hle : n ≤ rounded n := by
    unfold rounded
    omega
  have hfind := Represents.findFit_eq (rounded n) (t.poolSize + 1)
    (Nat.le_succ_of_le hr.length_le) hr.links hr.header
  have hnone : bs.find? (fun b => b.free && decide (rounded n ≤ b.size)) = none := by
    rw [List.find?_eq_none]
    intro b hb
    have hsize := hr.size_le hb
    rw [decide_eq_false (by omega), Bool.and_false]
    exact Bool.false_ne_true
  rw [← hr.head, hnone, Option.map_none] at hfind
  have h16 := t.aligned
  have hneeded : t.align (t.add headerSize (rounded n)) = headerSize + rounded n := by
    rw [add_eq t (by omega), align_eq t (by unfold headerSize rounded at *; omega)]
    unfold headerSize rounded
    omega
  rw [imalloc, imallocFuel, if_neg (by omega)]
  simp only [halign, hfind, Option.bind_eq_bind, Option.bind_some]
  rw [bump, hneeded, add_eq t (by omega), if_pos (by omega)]

theorem imalloc_refused (href : Refused t h n) : imalloc t h n = some (none, h) := by
  rw [imalloc, imallocFuel]
  obtain rfl | ⟨⟨bs, hr, hnone⟩, hfull⟩ := href
  · rfl
  split
  · rfl
  · have hfind := Represents.findFit_eq (t.align n) (t.poolSize + 1)
      (Nat.le_succ_of_le hr.length_le) hr.links hr.header
    have hmiss : bs.find? (fun b => b.free && decide (t.align n ≤ b.size)) = none := by
      rw [List.find?_eq_none]
      intro b hb hfits
      rw [Bool.and_eq_true, decide_eq_true_eq] at hfits
      have hsmall := hnone b hb hfits.1
      omega
    rw [← hr.head, hmiss, Option.map_none] at hfind
    simp only [hfind, Option.bind_eq_bind, Option.bind_some]
    rw [bump, if_pos hfull]

-- A new block is handed out, or there is no room for one.
theorem bump_null {fuel size : Nat} (hcall : bump t fuel h size = some (none, h')) :
    t.poolSize < t.add h.offset (t.align (t.add headerSize size)) := by
  rw [bump] at hcall
  by_contra hroom
  rw [if_neg hroom] at hcall
  cases hhead : h.head with
  | none =>
      simp only [hhead] at hcall
      cases hcall
  | some head =>
      simp only [hhead, Option.bind_eq_bind, Option.bind_eq_some_iff] at hcall
      obtain ⟨tail, -, hcall⟩ := hcall
      cases hcall

theorem refused_of_null (hr : Represents t h bs) (hcall : imalloc t h n = some (none, h')) :
    Refused t h n := by
  by_cases h0 : n = 0
  · exact .inl h0
  have hfind := Represents.findFit_eq (t.align n) (t.poolSize + 1)
    (Nat.le_succ_of_le hr.length_le) hr.links hr.header
  rw [← hr.head] at hfind
  rw [imalloc, imallocFuel, if_neg h0] at hcall
  simp only [hfind, Option.bind_eq_bind, Option.bind_some] at hcall
  cases hf : bs.find? fun b => b.free && decide (t.align n ≤ b.size) with
  | some b =>
      rw [hf] at hcall
      cases hcall
  | none =>
      rw [hf] at hcall
      refine .inr ⟨⟨bs, hr, fun b hb hfree => ?_⟩, bump_null hcall⟩
      simpa [hfree] using List.find?_eq_none.mp hf b hb

theorem imalloc_meets (hr : Represents t h bs) (hn : n ≤ t.poolSize) :
    ∃ r, imalloc t h n = some r ∧ Meets t h n r := by
  by_cases h0 : n = 0
  · subst h0
    exact ⟨(none, h), rfl, rfl⟩
  obtain ⟨p, h', bs', hcall, -, hnone, hr', halloc⟩ :=
    imalloc_represents hr (Nat.pos_of_ne_zero h0) hn
  refine ⟨_, hcall, ?_⟩
  cases p with
  | none => exact hnone rfl
  | some a =>
      obtain ⟨b, rfl, hsize, hused⟩ := halloc.used
      obtain ⟨hb, -⟩ := mem_used.mp (hused.mem_iff.mpr List.mem_cons_self)
      have hround : n ≤ rounded n := by
        unfold rounded
        omega
      have hcap := capacity_eq hr' hb
      have hin := hr'.size_le hb
      show n ≤ min (capacity h' (payload b)) (t.poolSize - payload b)
      rw [hcap, payload]
      omega

theorem meets_le_pool {p : Nat} {requested : Nat} (hmeets : Meets t h requested (some p, h')) :
    requested ≤ t.poolSize := by
  have hmin : requested ≤ min (capacity h' p) (t.poolSize - p) := hmeets
  omega

-- The size that `Imalloc` gets is what is left of the request in a size_t.
theorem imalloc_meets_iff (hr : Represents t h bs) {requested : Nat} (hn : n < t.sizeMod)
    (htotal : requested % t.sizeMod = n) :
    (∃ r, imalloc t h n = some r ∧ Meets t h requested r) ↔
      NoWrap t h requested ∨ Refused t h n := by
  constructor
  · rintro ⟨⟨p, h'⟩, hcall, hmeets⟩
    cases p with
    | some p => exact .inl (noWrap_of_le hr (meets_le_pool hmeets))
    | none => exact .inr (refused_of_null hr hcall)
  · rintro (hwrap | href)
    · rw [Nat.mod_eq_of_lt hwrap.lt] at htotal
      subst htotal
      by_cases hle : requested ≤ t.poolSize
      · exact imalloc_meets hr hle
      · exact ⟨_, imalloc_large hr (Nat.lt_of_not_le hle) hwrap, rfl⟩
    · exact ⟨_, imalloc_refused href, rfl⟩

end Imalloc

section Runs

variable {t : Target} {w w' : World} {c : Call}

theorem icalloc_meets_iff {h : Heap} {nmemb size : Nat} :
    (∃ r, icalloc t h nmemb size = some r ∧ Meets t h (nmemb * size) r) ↔
      ∃ r, imalloc t h (nmemb * size % t.sizeMod) = some r ∧ Meets t h (nmemb * size) r := by
  rw [icalloc]
  cases imalloc t h (nmemb * size % t.sizeMod) with
  | none => simp
  | some r =>
      obtain ⟨p, h'⟩ := r
      cases p with
      | none => simp [Meets]
      | some p =>
          simp only [Option.bind_eq_bind, Option.bind_some, Option.some.injEq, exists_eq_left']
          exact Iff.rfl

theorem met_iff_sound (hi : Invariant t w) (htyped : c.Typed t w) : c.Met t w ↔ c.Sound t w := by
  obtain ⟨bs, hr, -, -⟩ := hi
  have hroom := t.room
  cases c with
  | imalloc size =>
      have hmod : size % t.sizeMod = size := Nat.mod_eq_of_lt htyped
      rw [Call.Met, Call.Sound, Call.requested, hmod]
      exact imalloc_meets_iff hr htyped hmod
  | icalloc nmemb size =>
      rw [Call.Met, Call.Sound, Call.requested, icalloc_meets_iff]
      exact imalloc_meets_iff hr (Nat.mod_lt _ (by omega)) rfl
  | ifree ptr => exact Iff.rfl

-- A sound call that is not refused is one that `Imalloc` was made for.
theorem sound_keeps (hi : Invariant t w) (hsound : c.Sound t w) (hcall : Calls t w c w') :
    Invariant t w' := by
  obtain ⟨bs, hr, hc, ht⟩ := hi
  have hallowed : Allowed t w c → Invariant t w' := by
    intro hallow
    obtain ⟨w'', bs', hcall', hr', hc', ht', -⟩ := Invariant.call hr hc ht hallow
    obtain rfl := Option.some.inj (hcall'.symm.trans hcall.2)
    exact ⟨bs', hr', hc', ht'⟩
  have hnull : ∀ {n requested : Nat}, requested % t.sizeMod = n → n < t.sizeMod →
      NoWrap t w.heap requested ∨ Refused t w.heap n → t.poolSize < requested →
      imalloc t w.heap n = some (none, w.heap) := by
    intro n requested htotal hn hsound hlarge
    obtain hwrap | href := hsound
    · rw [← htotal, Nat.mod_eq_of_lt hwrap.lt]
      exact imalloc_large hr hlarge hwrap
    · exact imalloc_refused href
  have hroom := t.room
  cases c with
  | imalloc size =>
      by_cases hle : size ≤ t.poolSize
      · exact hallowed hle
      · have hmod : size % t.sizeMod = size := Nat.mod_eq_of_lt hcall.1
        rw [Call.Sound, Call.requested, hmod] at hsound
        have hrun := hcall.2
        rw [World.call, hnull hmod hcall.1 hsound (Nat.lt_of_not_le hle), Option.map_some] at hrun
        obtain rfl := Option.some.inj hrun
        exact ⟨bs, hr, hc, ht⟩
  | icalloc nmemb size =>
      by_cases hle : nmemb * size ≤ t.poolSize
      · exact hallowed hle
      · rw [Call.Sound, Call.requested] at hsound
        have hrun := hcall.2
        rw [World.call, icalloc, hnull rfl (Nat.mod_lt _ (by omega)) hsound
          (Nat.lt_of_not_le hle)] at hrun
        obtain rfl := Option.some.inj hrun
        exact ⟨bs, hr, hc, ht⟩
  | ifree ptr =>
      cases ptr with
      | none => exact hallowed trivial
      | some p => exact hallowed hcall.1

end Runs

theorem largest_handed_out :
    (imalloc hosted emptyHeap (2 ^ 64 - 1)).map (fun r => (r.1, usable hosted r.2 48)) =
      some (some 48, 0) := by
  decide +kernel

end BTron.Libstr
