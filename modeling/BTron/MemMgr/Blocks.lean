import BTron.MemMgr
import BTron.Lib.Run

namespace BTron.MemMgr

open Lib

-- A used slot and a region that malloc gave belong together, one to one.
structure Tracked (s : Mem) : Prop where
  zero : s.init = false → ∀ i, s.table i = .zero
  owned : ∀ i, (s.table i).inUse → (s.heap (s.table i).basePtr).isSome
  slot : ∀ a n, s.heap a = some n → ∃ i, (s.table i).inUse ∧ (s.table i).basePtr = a
  positive : ∀ a n, s.heap a = some n → a ≠ 0 ∧ 0 < n
  distinct : ∀ i j, (s.table i).inUse → (s.table j).inUse →
    (s.table i).basePtr = (s.table j).basePtr → i = j

def SizesOwned (s : Mem) : Prop :=
  ∀ i, (s.table i).inUse →
    ∃ n, s.heap (s.table i).basePtr = some n ∧ (s.table i).nblk * BTRON_BLOCK_SIZE ≤ n

def Unshared (s : Mem) : Prop :=
  ∀ i j, (s.table i).inUse → (s.table j).inUse → i ≠ j → (s.table i).basePtr ≠ (s.table j).basePtr

def FailuresKeep (s : Mem) : Prop := ∀ c, (exec s c).2 ≠ E_OK → (exec s c).1.table = s.table

-- A block is not given more than the memory that it has.
def Fits (s : Mem) : Call → Prop
  | .chg adr nblk => ∀ n, s.heap adr = some n → nblk * BTRON_BLOCK_SIZE ≤ n
  | .get .. | .rel _ => True

theorem tracked_start : Tracked .start where
  zero _ _ := rfl
  owned i h := by simp [Mem.start, MemTrack.zero] at h
  slot a n h := by simp [Mem.start] at h
  positive a n h := by simp [Mem.start] at h
  distinct i j h := by simp [Mem.start, MemTrack.zero] at h

theorem sizesOwned_start : SizesOwned .start := by
  intro i h
  simp [Mem.start, MemTrack.zero] at h

theorem Tracked.memInitOnce_eq {s : Mem} (h : Tracked s) :
    memInitOnce s = { s with init := true } := by
  unfold memInitOnce
  cases hinit : s.init with
  | true =>
      rw [if_pos rfl, ← hinit]
  | false =>
      have htable : s.table = fun _ => .zero := funext (h.zero hinit)
      rw [if_neg (by decide), ← htable]

theorem Tracked.ready {s : Mem} (h : Tracked s) : Tracked { s with init := true } where
  zero h' := by simp at h'
  owned := h.owned
  slot := h.slot
  positive := h.positive
  distinct := h.distinct

-- All that a call can do.
inductive Effect (s : Mem) : Call → Mem × ER → Prop
  | fails {c s' er} : er ≠ E_OK → s' = s ∨ s' = { s with init := true } → Fits s c →
      Effect s c (s', er)
  | gets {nblk atr ptr} (i) : 0 < nblk → ptr ≠ 0 → (s.table i).inUse = false →
      Effect s (.get true nblk atr ptr)
        (⟨Function.update s.table i ⟨ptr, nblk, atr, true⟩, true,
          Function.update s.heap ptr (some (sizeOf nblk))⟩, E_OK)
  | releases (i) : (s.table i).inUse →
      Effect s (.rel (s.table i).basePtr)
        (⟨Function.update s.table i { s.table i with basePtr := 0, inUse := false }, true,
          Function.update s.heap (s.table i).basePtr none⟩, E_OK)
  | changes {nblk} (i) : (s.table i).inUse →
      Effect s (.chg (s.table i).basePtr nblk)
        (⟨Function.update s.table i { s.table i with nblk := nblk }, true, s.heap⟩, E_OK)

theorem findFree_some {s : Mem} {i : Fin maxMemAllocs} (h : findFree s = some i) :
    (s.table i).inUse = false := by
  have hi := (Fin.find?_eq_some_iff.mp h).1
  rwa [Bool.not_eq_true'] at hi

theorem findBlock_some {s : Mem} {adr : Nat} {i : Fin maxMemAllocs}
    (h : findBlock s adr = some i) : (s.table i).inUse ∧ (s.table i).basePtr = adr := by
  have hi := (Fin.find?_eq_some_iff.mp h).1
  rwa [Bool.and_eq_true, beq_iff_eq] at hi

theorem findBlock_none {s : Mem} (h : Tracked s) {adr : Nat} (hnone : findBlock s adr = none) :
    s.heap adr = none := by
  cases hn : s.heap adr with
  | none => rfl
  | some n =>
      obtain ⟨i, hi, hbase⟩ := h.slot adr n hn
      have hfalse := Fin.find?_eq_none_iff.mp hnone i
      simp [hi, hbase] at hfalse

theorem errors_ne_ok : ER_ADR ≠ E_OK ∧ ER_PAR ≠ E_OK ∧ ER_NOSPC ≠ E_OK := by decide

theorem get_effect {s : Mem} (h : Tracked s) (out : Bool) (nblk : Int) (atr ptr : Nat) :
    Effect s (.get out nblk atr ptr)
      ((getMbk s out nblk atr ptr).1, (getMbk s out nblk atr ptr).2.1) := by
  obtain ⟨hadrErr, hparErr, hspcErr⟩ := errors_ne_ok
  unfold getMbk
  cases out with
  | false => exact .fails hadrErr (.inl rfl) trivial
  | true =>
      by_cases hpos : nblk ≤ 0
      · simp only [Bool.not_true, Bool.false_eq_true, if_false, if_pos hpos]
        exact .fails hparErr (.inl rfl) trivial
      · simp only [Bool.not_true, Bool.false_eq_true, if_false, if_neg hpos, h.memInitOnce_eq]
        cases hfree : findFree { s with init := true } with
        | none => exact .fails hspcErr (.inr rfl) trivial
        | some i =>
            have hi := findFree_some hfree
            by_cases hptr : ptr = 0
            · simp only [if_pos hptr]
              exact .fails hspcErr (.inr rfl) trivial
            · simp only [if_neg hptr]
              exact .gets i (by omega) hptr hi

theorem rel_effect {s : Mem} (h : Tracked s) (adr : Nat) :
    Effect s (.rel adr) (relMbk s adr) := by
  obtain ⟨hadrErr, hparErr, -⟩ := errors_ne_ok
  unfold relMbk
  by_cases hadr : adr = 0
  · rw [if_pos hadr]
    exact .fails hadrErr (.inl rfl) trivial
  · simp only [if_neg hadr, h.memInitOnce_eq]
    cases hfind : findBlock { s with init := true } adr with
    | none => exact .fails hparErr (.inr rfl) trivial
    | some i =>
        obtain ⟨hi, rfl⟩ := findBlock_some hfind
        exact .releases i hi

theorem chg_effect {s : Mem} (h : Tracked s) (adr : Nat) (nblk : Int) :
    Effect s (.chg adr nblk) (chgMbk s adr nblk) := by
  obtain ⟨hadrErr, hparErr, -⟩ := errors_ne_ok
  unfold chgMbk
  by_cases hadr : adr = 0
  · rw [if_pos hadr]
    refine .fails hadrErr (.inl rfl) ?_
    intro n hn
    exact absurd hadr (h.positive adr n hn).1
  · by_cases hpos : nblk ≤ 0
    · rw [if_neg hadr, if_pos hpos]
      refine .fails hparErr (.inl rfl) ?_
      intro n hn
      have hn' := (h.positive adr n hn).2
      simp only [BTRON_BLOCK_SIZE]
      omega
    · simp only [if_neg hadr, if_neg hpos, h.memInitOnce_eq]
      cases hfind : findBlock { s with init := true } adr with
      | none =>
          refine .fails hparErr (.inr rfl) ?_
          intro n hn
          have hnone : s.heap adr = none := findBlock_none h.ready hfind
          rw [hnone] at hn
          cases hn
      | some i =>
          obtain ⟨hi, rfl⟩ := findBlock_some hfind
          exact .changes i hi

theorem exec_effect {s : Mem} (h : Tracked s) (c : Call) : Effect s c (exec s c) := by
  cases c with
  | get out nblk atr ptr => exact get_effect h out nblk atr ptr
  | rel adr => exact rel_effect h adr
  | chg adr nblk => exact chg_effect h adr nblk

section Steps

variable {s : Mem} {c : Call} {r : Mem × ER}

theorem Effect.table_eq (h : Effect s c r) (her : r.2 ≠ E_OK) : r.1.table = s.table := by
  cases h with
  | fails _ hs' _ =>
      rcases hs' with rfl | rfl
      · rfl
      · rfl
  | gets => exact absurd rfl her
  | releases => exact absurd rfl her
  | changes => exact absurd rfl her

-- malloc gives no address that it has given before and not got back.
theorem fresh_ne {s : Mem} (h : Tracked s) {ptr : Nat} {size n : Int} {a : Nat}
    (hfresh : Fresh s.heap ptr size) (hptr : ptr ≠ 0) (hsize : 0 < size)
    (ha : s.heap a = some n) : a ≠ ptr := by
  have hn := (h.positive a n ha).2
  have hapart := hfresh hptr a n ha
  omega

theorem sizeOf_eq {nblk : Int} (hpos : 0 < nblk) (hrange : nblk ≤ 2147483647) :
    sizeOf nblk = nblk * BTRON_BLOCK_SIZE := by
  unfold sizeOf BTRON_BLOCK_SIZE
  omega

theorem tracked_gets (h : Tracked s) {nblk : Int} {atr ptr : Nat} {i : Fin maxMemAllocs}
    (hsize : 0 < sizeOf nblk) (hptr : ptr ≠ 0) (hfresh : Fresh s.heap ptr (sizeOf nblk))
    (hfree : (s.table i).inUse = false) :
    Tracked ⟨Function.update s.table i ⟨ptr, nblk, atr, true⟩, true,
      Function.update s.heap ptr (some (sizeOf nblk))⟩ := by
  have hother : ∀ j, j ≠ i → (s.table j).inUse → (s.table j).basePtr ≠ ptr := by
    intro j _ huse
    obtain ⟨n, hn⟩ := Option.isSome_iff_exists.mp (h.owned j huse)
    exact fresh_ne h hfresh hptr hsize hn
  constructor
  · intro hinit
    cases hinit
  · intro j huse
    by_cases hj : j = i
    · subst hj
      simp
    · simp only [Function.update_of_ne hj] at huse ⊢
      rw [Function.update_of_ne (hother j hj huse)]
      exact h.owned j huse
  · intro a n ha
    by_cases hap : a = ptr
    · exact ⟨i, by simp [hap]⟩
    · simp only [Function.update_of_ne hap] at ha
      obtain ⟨j, huse, hbase⟩ := h.slot a n ha
      have hj : j ≠ i := by
        rintro rfl
        rw [hfree] at huse
        cases huse
      exact ⟨j, by simp [Function.update_of_ne hj, huse, hbase]⟩
  · intro a n ha
    by_cases hap : a = ptr
    · subst hap
      simp only [Function.update_self, Option.some.injEq] at ha
      omega
    · simp only [Function.update_of_ne hap] at ha
      exact h.positive a n ha
  · intro j k hj hk hbase
    by_cases hji : j = i
    · by_cases hki : k = i
      · rw [hji, hki]
      · subst hji
        simp only [Function.update_of_ne hki, Function.update_self] at hk hbase
        exact absurd hbase.symm (hother k hki hk)
    · by_cases hki : k = i
      · subst hki
        simp only [Function.update_of_ne hji, Function.update_self] at hj hbase
        exact absurd hbase (hother j hji hj)
      · simp only [Function.update_of_ne hji, Function.update_of_ne hki] at hj hk hbase
        exact h.distinct j k hj hk hbase

theorem tracked_releases (h : Tracked s) {i : Fin maxMemAllocs} (huse : (s.table i).inUse) :
    Tracked ⟨Function.update s.table i { s.table i with basePtr := 0, inUse := false }, true,
      Function.update s.heap (s.table i).basePtr none⟩ := by
  have hne : ∀ j, (Function.update s.table i
      { s.table i with basePtr := 0, inUse := false } j).inUse → j ≠ i := by
    rintro j hj rfl
    simp at hj
  constructor
  · intro hinit
    cases hinit
  · intro j hj
    have hji := hne j hj
    simp only [Function.update_of_ne hji] at hj ⊢
    have hbase : (s.table j).basePtr ≠ (s.table i).basePtr := fun heq =>
      hji (h.distinct j i hj huse heq)
    rw [Function.update_of_ne hbase]
    exact h.owned j hj
  · intro a n ha
    by_cases hai : a = (s.table i).basePtr
    · simp [hai] at ha
    · simp only [Function.update_of_ne hai] at ha
      obtain ⟨j, hj, hbase⟩ := h.slot a n ha
      have hji : j ≠ i := by
        rintro rfl
        exact hai hbase.symm
      exact ⟨j, by simp [Function.update_of_ne hji, hj, hbase]⟩
  · intro a n ha
    by_cases hai : a = (s.table i).basePtr
    · simp [hai] at ha
    · simp only [Function.update_of_ne hai] at ha
      exact h.positive a n ha
  · intro j k hj hk hbase
    have hji := hne j hj
    have hki := hne k hk
    simp only [Function.update_of_ne hji, Function.update_of_ne hki] at hj hk hbase
    exact h.distinct j k hj hk hbase

-- Neither the address nor the use of a slot is changed.
theorem tracked_changes (h : Tracked s) (i : Fin maxMemAllocs) (nblk : Int) :
    Tracked ⟨Function.update s.table i { s.table i with nblk := nblk }, true, s.heap⟩ := by
  have huse : ∀ j, (Function.update s.table i { s.table i with nblk := nblk } j).inUse =
      (s.table j).inUse := by
    intro j
    rw [Function.apply_update (fun _ => MemTrack.inUse), Function.update_eq_self]
  have hbase : ∀ j, (Function.update s.table i { s.table i with nblk := nblk } j).basePtr =
      (s.table j).basePtr := by
    intro j
    rw [Function.apply_update (fun _ => MemTrack.basePtr), Function.update_eq_self]
  constructor
  · intro hinit
    cases hinit
  · intro j
    simpa only [huse, hbase] using h.owned j
  · intro a n
    simpa only [huse, hbase] using h.slot a n
  · exact h.positive
  · intro j k
    simpa only [huse, hbase] using h.distinct j k

theorem tracked_step {s' : Mem} (h : Tracked s) (hstep : Step s c s') : Tracked s' := by
  obtain ⟨hrange, hpossible, rfl⟩ := hstep
  have heffect := exec_effect h c
  generalize exec s c = r at heffect
  cases heffect with
  | fails _ hs' _ =>
      rcases hs' with rfl | rfl
      · exact h
      · exact h.ready
  | gets i hpos hptr hfree =>
      have hsize := sizeOf_eq hpos hrange.2
      refine tracked_gets h ?_ hptr hpossible hfree
      unfold BTRON_BLOCK_SIZE at hsize
      omega
  | releases i huse => exact tracked_releases h huse
  | changes i huse => exact tracked_changes h i _

theorem sizes_gets (hP : SizesOwned s) {nblk : Int} {atr ptr : Nat}
    {i : Fin maxMemAllocs} (hsize : sizeOf nblk = nblk * BTRON_BLOCK_SIZE)
    (hne : ∀ a n, s.heap a = some n → a ≠ ptr) :
    SizesOwned ⟨Function.update s.table i ⟨ptr, nblk, atr, true⟩, true,
      Function.update s.heap ptr (some (sizeOf nblk))⟩ := by
  intro j huse
  by_cases hj : j = i
  · subst hj
    exact ⟨sizeOf nblk, by simp, by simp [hsize]⟩
  · simp only [Function.update_of_ne hj] at huse ⊢
    obtain ⟨n, hn, hle⟩ := hP j huse
    exact ⟨n, by rw [Function.update_of_ne (hne _ _ hn), hn], hle⟩

theorem sizes_releases (h : Tracked s) (hP : SizesOwned s) {i : Fin maxMemAllocs}
    (huse : (s.table i).inUse) :
    SizesOwned ⟨Function.update s.table i { s.table i with basePtr := 0, inUse := false }, true,
      Function.update s.heap (s.table i).basePtr none⟩ := by
  intro j hj
  by_cases hji : j = i
  · subst hji
    simp at hj
  · simp only [Function.update_of_ne hji] at hj ⊢
    obtain ⟨n, hn, hle⟩ := hP j hj
    have hbase : (s.table j).basePtr ≠ (s.table i).basePtr := fun heq =>
      hji (h.distinct j i hj huse heq)
    exact ⟨n, by rw [Function.update_of_ne hbase, hn], hle⟩

-- The count goes into the table unseen: the block has the memory for it or has not.
theorem sizes_changes (h : Tracked s) (hP : SizesOwned s) {i : Fin maxMemAllocs}
    (huse : (s.table i).inUse) (nblk : Int) :
    SizesOwned ⟨Function.update s.table i { s.table i with nblk := nblk }, true, s.heap⟩ ↔
      Fits s (.chg (s.table i).basePtr nblk) := by
  constructor
  · intro hsizes n hn
    obtain ⟨m, hm, hle⟩ := hsizes i (by simpa using huse)
    simp only [Function.update_self] at hm hle
    obtain rfl := Option.some.inj (hn.symm.trans hm)
    exact hle
  · intro hfits j hj
    by_cases hji : j = i
    · subst hji
      obtain ⟨n, hn⟩ := Option.isSome_iff_exists.mp (h.owned j huse)
      exact ⟨n, by simpa using hn, by simpa using hfits n hn⟩
    · simp only [Function.update_of_ne hji] at hj ⊢
      exact hP j hj

theorem sizes_step {s' : Mem} (h : Tracked s) (hP : SizesOwned s) (hstep : Step s c s') :
    SizesOwned s' ↔ Fits s c := by
  obtain ⟨hrange, hpossible, rfl⟩ := hstep
  have heffect := exec_effect h c
  generalize exec s c = r at heffect
  cases heffect with
  | fails _ hs' hfits =>
      refine iff_of_true ?_ hfits
      rcases hs' with rfl | rfl
      · exact hP
      · exact hP
  | gets i hpos hptr hfree =>
      have hsize := sizeOf_eq hpos hrange.2
      have hne : ∀ a n, s.heap a = some n → a ≠ _ := fun a n =>
        fresh_ne h hpossible hptr (by
          unfold BTRON_BLOCK_SIZE at hsize
          omega)
      exact iff_of_true (sizes_gets hP hsize hne) trivial
  | releases i huse => exact iff_of_true (sizes_releases h hP huse) trivial
  | changes i huse => exact sizes_changes h hP huse _

end Steps

theorem Tracked.unshared {s : Mem} (h : Tracked s) : Unshared s :=
  fun i j hi hj hne heq => hne (h.distinct i j hi hj heq)

theorem Tracked.failuresKeep {s : Mem} (h : Tracked s) : FailuresKeep s :=
  fun c => (exec_effect h c).table_eq

def run (cs : List Call) : Mem := cs.foldl (fun s c => (exec s c).1) .start

theorem step_get_start (nblk : Int) (ptr : Nat) (hrange : 0 ≤ nblk ∧ nblk ≤ 2147483647) :
    Step .start (.get true nblk 0 ptr) (run [.get true nblk 0 ptr]) := by
  refine ⟨⟨by omega, hrange.2⟩, ?_, rfl⟩
  intro _ a n hn
  cases hn

theorem step_chg (s : Mem) (adr : Nat) (nblk : Int) (hrange : 0 ≤ nblk ∧ nblk ≤ 2147483647) :
    Step s (.chg adr nblk) (exec s (.chg adr nblk)).1 :=
  ⟨⟨by omega, hrange.2⟩, trivial, rfl⟩

theorem step_rel (s : Mem) (adr : Nat) : Step s (.rel adr) (exec s (.rel adr)).1 :=
  ⟨trivial, trivial, rfl⟩

theorem fits_chg {s : Mem} {adr : Nat} {nblk n : Int} (hn : s.heap adr = some n)
    (hle : nblk * BTRON_BLOCK_SIZE ≤ n) : Fits s (.chg adr nblk) := by
  intro m hm
  obtain rfl := Option.some.inj (hn.symm.trans hm)
  exact hle

theorem SizesOwned.size_le {s : Mem} (h : SizesOwned s) {i : Fin maxMemAllocs} {adr atr : Nat}
    {nblk n : Int} (hi : s.table i = ⟨adr, nblk, atr, true⟩) (hn : s.heap adr = some n) :
    nblk * BTRON_BLOCK_SIZE ≤ n := by
  obtain ⟨m, hm, hle⟩ := h i (by rw [hi])
  rw [hi] at hm hle
  obtain rfl := Option.some.inj (hn.symm.trans hm)
  exact hle

end BTron.MemMgr
