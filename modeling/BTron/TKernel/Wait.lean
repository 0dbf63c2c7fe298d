import BTron.Lib.Serve

namespace BTron.TKernel

open Lib

inductive Er
  | ok | par | noexs | obj | ctx | iluse | qovr | tmout | diswai | rlwai | dlt
deriving DecidableEq

-- A task that waits: its ID, its priority (the smaller goes first), and what it waits for
structure Waiter (ι : Type) where
  tskid : Nat
  priority : Nat
  winfo : ι
deriving DecidableEq

-- The part all control blocks share. Of the attribute `tpri` is TA_TPRI and `nodiswai`
-- TA_NODISWAI.
structure Gcb (ι : Type) where
  waitQueue : List (Waiter ι)
  tpri : Bool
  nodiswai : Bool

variable {ι : Type}

def queueInsertTpri (w : Waiter ι) (q : List (Waiter ι)) : List (Waiter ι) :=
  insertByKey Waiter.priority w q

-- `masked` is whether the task may not wait for this kind of object.
def isDiswai (gcb : Gcb ι) (masked : Bool) : Bool := masked && !gcb.nodiswai

def gcbMakeWait (gcb : Gcb ι) (w : Waiter ι) : Gcb ι :=
  { gcb with
    waitQueue := if gcb.tpri then queueInsertTpri w gcb.waitQueue else gcb.waitQueue ++ [w] }

-- No error code is for a call that does not come back yet.
def gcbMakeWaitWithDiswai (gcb : Gcb ι) (masked : Bool) (w : Waiter ι) (tmout : Int) :
    Option Er × Gcb ι :=
  if isDiswai gcb masked then (some .diswai, gcb)
  else if tmout = 0 then (some .tmout, gcb)
  else (none, gcbMakeWait gcb w)

def gcbWithout (gcb : Gcb ι) (tskid : Nat) : Gcb ι :=
  { gcb with waitQueue := gcb.waitQueue.filter (·.tskid ≠ tskid) }

def gcbChangePriority (gcb : Gcb ι) (w : Waiter ι) (priority : Nat) : Gcb ι :=
  { gcb with
    waitQueue := queueInsertTpri { w with priority } (gcbWithout gcb w.tskid).waitQueue }

-- `gcb_top_of_wait_queue(gcb, ctxtsk) == ctxtsk`
def gcbTopIsSelf (gcb : Gcb ι) (priority : Nat) : Bool :=
  match gcb.waitQueue with
  | [] => true
  | q :: _ => gcb.tpri && priority < q.priority

-- Each task waits once, and in a queue by priority those of a higher priority come first.
structure Gcb.Orderly (gcb : Gcb ι) : Prop where
  once : (gcb.waitQueue.map Waiter.tskid).Nodup
  sorted : gcb.tpri = true → gcb.waitQueue.Pairwise fun a b => a.priority ≤ b.priority

-- The task does not wait here.
def Gcb.Lacks (gcb : Gcb ι) (tskid : Nat) : Prop := ∀ w ∈ gcb.waitQueue, w.tskid ≠ tskid

variable {gcb : Gcb ι} {w : Waiter ι} {tskid priority : Nat}

theorem mem_gcbMakeWait {x : Waiter ι} :
    x ∈ (gcbMakeWait gcb w).waitQueue ↔ x = w ∨ x ∈ gcb.waitQueue := by
  rw [gcbMakeWait]
  dsimp only
  split
  · exact mem_insertByKey
  · rw [List.mem_append, List.mem_singleton, or_comm]

theorem gcbMakeWait_perm : (gcbMakeWait gcb w).waitQueue.Perm (w :: gcb.waitQueue) := by
  rw [gcbMakeWait]
  dsimp only
  split
  · exact insertByKey_perm _ w _
  · exact List.perm_append_singleton w _

theorem Gcb.Orderly.sublist {q : List (Waiter ι)} (h : gcb.Orderly)
    (hq : q.Sublist gcb.waitQueue) :
    Gcb.Orderly { gcb with waitQueue := q } :=
  ⟨h.once.sublist (hq.map _), fun htpri => (h.sorted htpri).sublist hq⟩

theorem Gcb.Orderly.makeWait (h : gcb.Orderly) (hw : gcb.Lacks w.tskid) :
    (gcbMakeWait gcb w).Orderly := by
  refine ⟨?_, ?_⟩
  · rw [(gcbMakeWait_perm.map Waiter.tskid).nodup_iff, List.map_cons, List.nodup_cons]
    refine ⟨?_, h.once⟩
    intro hmem
    obtain ⟨x, hx, heq⟩ := List.mem_map.mp hmem
    exact hw x hx heq
  · intro htpri
    have htpri : gcb.tpri = true := htpri
    rw [gcbMakeWait]
    dsimp only
    rw [if_pos htpri]
    exact insertByKey_sorted (h.sorted htpri)

theorem Gcb.Orderly.without (h : gcb.Orderly) (tskid : Nat) : (gcbWithout gcb tskid).Orderly :=
  h.sublist List.filter_sublist

theorem gcbWithout_lacks (gcb : Gcb ι) (tskid : Nat) : (gcbWithout gcb tskid).Lacks tskid :=
  fun _ hw => of_decide_eq_true (List.mem_filter.mp hw).2

theorem Gcb.Orderly.changePriority (h : gcb.Orderly) (htpri : gcb.tpri = true) :
    (gcbChangePriority gcb w priority).Orderly := by
  have hmake := (h.without w.tskid).makeWait (w := { w with priority })
    (gcbWithout_lacks gcb w.tskid)
  have heq : gcbMakeWait (gcbWithout gcb w.tskid) { w with priority } =
      gcbChangePriority gcb w priority := by
    have htpri' : (gcbWithout gcb w.tskid).tpri = true := htpri
    rw [gcbMakeWait, if_pos htpri']
    rfl
  rwa [heq] at hmake

-- Either the call comes back with an error and nothing has changed, or the task waits.
theorem gcbMakeWaitWithDiswai_cases (gcb : Gcb ι) (masked : Bool) (w : Waiter ι) (tmout : Int) :
    (∃ ercd, ercd ≠ .ok ∧ gcbMakeWaitWithDiswai gcb masked w tmout = (some ercd, gcb)) ∨
      tmout ≠ 0 ∧ gcbMakeWaitWithDiswai gcb masked w tmout = (none, gcbMakeWait gcb w) := by
  rw [gcbMakeWaitWithDiswai]
  split
  · exact .inl ⟨.diswai, by decide, rfl⟩
  · split
    · exact .inl ⟨.tmout, by decide, rfl⟩
    · rename_i h
      exact .inr ⟨h, rfl⟩

-- The first is who was the first, or the one who came, if that one was on top.
theorem head_gcbMakeWait {x : Waiter ι} (hx : x ∈ (gcbMakeWait gcb w).waitQueue.head?) :
    x = w ∧ gcbTopIsSelf gcb w.priority = true ∨ x ∈ gcb.waitQueue.head? := by
  cases hq : gcb.waitQueue with
  | nil =>
      have hmem := mem_gcbMakeWait.mp (List.mem_of_head? hx)
      rw [hq] at hmem
      refine .inl ⟨hmem.resolve_right List.not_mem_nil, ?_⟩
      rw [gcbTopIsSelf, hq]
  | cons y q =>
      rw [gcbMakeWait, hq] at hx
      dsimp only at hx
      split at hx
      · rename_i htpri
        rw [queueInsertTpri, insertByKey, List.orderedInsert_cons] at hx
        split at hx
        · rename_i hlt
          refine .inl ⟨(Option.some.inj hx).symm, ?_⟩
          rw [gcbTopIsSelf, hq]
          simp only [htpri, hlt, decide_true, Bool.and_self]
        · exact .inr hx
      · exact .inr hx

theorem mem_gcbWithout {x : Waiter ι} (hx : x ∈ (gcbWithout gcb tskid).waitQueue) :
    x ∈ gcb.waitQueue := (List.mem_filter.mp hx).1

theorem mem_gcbChangePriority {x : Waiter ι}
    (hx : x ∈ (gcbChangePriority gcb w priority).waitQueue) :
    x = { w with priority } ∨ x ∈ gcb.waitQueue :=
  (mem_insertByKey.mp hx).imp_right mem_gcbWithout

theorem length_gcbChangePriority (hw : w ∈ gcb.waitQueue) (priority : Nat) :
    (gcbChangePriority gcb w priority).waitQueue.length ≤ gcb.waitQueue.length := by
  have hlt : (gcbWithout gcb w.tskid).waitQueue.length < gcb.waitQueue.length :=
    List.length_filter_lt_length_iff_exists.mpr ⟨w, hw, by simp⟩
  rw [gcbChangePriority, queueInsertTpri, (insertByKey_perm _ _ _).length_eq, List.length_cons]
  exact hlt

end BTron.TKernel
