import BTron.Lib.Run
import Mathlib.Data.Multiset.Basic
import Mathlib.Data.Multiset.ZeroCons

namespace BTron.Lib

-- Data under a lock with one condition variable. A call with a request `ω` runs a critical
-- section that may have to wait; a call `α` never waits, and may signal.
structure Monitor (σ ω α : Type) where
  -- `none` when the caller has to wait
  attempt : σ → ω → Option σ
  call : σ → α → σ × Bool
  timed : ω → Prop

-- The callers that wait, by their requests: asleep, or awake again but not yet run.
structure Monitor.Conf (σ ω : Type) where
  data : σ
  blocked : Multiset ω
  woken : Multiset ω

inductive Monitor.Act (ω α : Type)
  | enter (w : ω)
  | resume (w : ω)
  | call (a : α)
  | spurious (w : ω)
  | timeout (w : ω)

variable {σ ω α : Type}

-- One atomic step. A signal wakes one of the callers asleep, whichever, or none when there is none.
inductive Monitor.Step (M : Monitor σ ω α) : Conf σ ω → Act ω α → Conf σ ω → Prop
  | take {d d' b k w} : M.attempt d w = some d' → M.Step ⟨d, b, k⟩ (.enter w) ⟨d', b, k⟩
  | block {d b k w} : M.attempt d w = none → M.Step ⟨d, b, k⟩ (.enter w) ⟨d, w ::ₘ b, k⟩
  | retake {d d' b k w} : M.attempt d w = some d' →
      M.Step ⟨d, b, w ::ₘ k⟩ (.resume w) ⟨d', b, k⟩
  | reblock {d b k w} : M.attempt d w = none →
      M.Step ⟨d, b, w ::ₘ k⟩ (.resume w) ⟨d, w ::ₘ b, k⟩
  | quiet {d d' b k a} : M.call d a = (d', false) → M.Step ⟨d, b, k⟩ (.call a) ⟨d', b, k⟩
  | wake {d d' b k a w} : M.call d a = (d', true) →
      M.Step ⟨d, w ::ₘ b, k⟩ (.call a) ⟨d', b, w ::ₘ k⟩
  | lost {d d' k a} : M.call d a = (d', true) → M.Step ⟨d, 0, k⟩ (.call a) ⟨d', 0, k⟩
  | spurious {d b k w} : M.Step ⟨d, w ::ₘ b, k⟩ (.spurious w) ⟨d, b, w ::ₘ k⟩
  | timeout {d b k w} : M.timed w → M.Step ⟨d, w ::ₘ b, k⟩ (.timeout w) ⟨d, b, k⟩

namespace Monitor

variable (M : Monitor σ ω α)

def start (d : σ) : Conf σ ω := ⟨d, 0, 0⟩

-- The configurations reached while every caller's request satisfies `p`.
def Reachable (p : ω → Prop) (d : σ) (c : Conf σ ω) : Prop :=
  ∃ tr, Trace M.Step (start d) tr c ∧ ∀ t ∈ tr, ∀ w, t.2 = .enter w → p w

theorem reachable_start (p : ω → Prop) (d : σ) : M.Reachable p d (start d) := ⟨[], .start, by simp⟩

theorem Reachable.next {M : Monitor σ ω α} {p : ω → Prop} {d : σ} {c c' : Conf σ ω} {a : Act ω α}
    (h : M.Reachable p d c) (hp : ∀ w, a = .enter w → p w) (hstep : M.Step c a c') :
    M.Reachable p d c' := by
  obtain ⟨tr, htr, hall⟩ := h
  refine ⟨(c, a) :: tr, .next htr hstep, ?_⟩
  rw [List.forall_mem_cons]
  exact ⟨hp, hall⟩

-- How many waiting calls with a given request the data can satisfy, for data that keep `I`.
structure Units (I : σ → Prop) (avail : σ → ω → Nat) : Prop where
  attempt_keeps : ∀ {d d' w}, I d → M.attempt d w = some d' → I d'
  call_keeps : ∀ {d d' a b}, I d → M.call d a = (d', b) → I d'
  none : ∀ {d w}, I d → M.attempt d w = none → avail d w = 0
  take : ∀ {d d' w}, I d → M.attempt d w = some d' → avail d' w < avail d w
  take_le : ∀ {d d' w}, I d → M.attempt d w = some d' → ∀ v, avail d' v ≤ avail d v
  signal : ∀ {d d' a}, I d → M.call d a = (d', true) → ∀ w, avail d' w ≤ avail d w + 1
  quiet : ∀ {d d' a}, I d → M.call d a = (d', false) → ∀ w, avail d' w ≤ avail d w

-- Whoever sleeps finds no more units than there are callers on their way to them.
def Covered (avail : σ → ω → Nat) (c : Conf σ ω) : Prop :=
  ∀ w ∈ c.blocked, avail c.data w ≤ c.woken.card

-- Asleep on an available unit with nobody awake to take it.
def Stranded (avail : σ → ω → Nat) (c : Conf σ ω) : Prop :=
  c.woken = 0 ∧ ∃ w ∈ c.blocked, 0 < avail c.data w

variable {M} {avail : σ → ω → Nat} {p : ω → Prop} {c c' : Conf σ ω} {a : Act ω α}

theorem Covered.not_stranded (h : Covered avail c) : ¬Stranded avail c := by
  rintro ⟨hwoken, w, hw, hpos⟩
  have hle := h w hw
  rw [hwoken, Multiset.card_zero] at hle
  omega

-- Everyone who waits made a request that satisfies `p`.
def Within (p : ω → Prop) (c : Conf σ ω) : Prop := (∀ w ∈ c.blocked, p w) ∧ ∀ w ∈ c.woken, p w

theorem within_step (h : Within p c) (hp : ∀ w, a = .enter w → p w) (hstep : M.Step c a c') :
    Within p c' := by
  obtain ⟨hb, hk⟩ := h
  cases hstep with
  | take => exact ⟨hb, hk⟩
  | block =>
      refine ⟨fun v hv => ?_, hk⟩
      obtain rfl | hv := Multiset.mem_cons.mp hv
      · exact hp _ rfl
      · exact hb v hv
  | retake => exact ⟨hb, fun v hv => hk v (Multiset.mem_cons_of_mem hv)⟩
  | reblock =>
      refine ⟨fun v hv => ?_, fun v hv => hk v (Multiset.mem_cons_of_mem hv)⟩
      obtain rfl | hv := Multiset.mem_cons.mp hv
      · exact hk _ (Multiset.mem_cons_self _ _)
      · exact hb v hv
  | quiet => exact ⟨hb, hk⟩
  | wake | spurious =>
      refine ⟨fun v hv => hb v (Multiset.mem_cons_of_mem hv), fun v hv => ?_⟩
      obtain rfl | hv := Multiset.mem_cons.mp hv
      · exact hb _ (Multiset.mem_cons_self _ _)
      · exact hk v hv
  | lost => exact ⟨hb, hk⟩
  | timeout => exact ⟨fun v hv => hb v (Multiset.mem_cons_of_mem hv), hk⟩

variable {I : σ → Prop}

theorem keeps_step (hM : M.Units I avail) (hI : I c.data) (hstep : M.Step c a c') : I c'.data := by
  cases hstep with
  | take hd | retake hd => exact hM.attempt_keeps hI hd
  | quiet hd | wake hd | lost hd => exact hM.call_keeps hI hd
  | block | reblock | spurious | timeout => exact hI

-- When all requests are for the same units, no step leaves a unit to sleepers only.
theorem covered_step (hM : M.Units I avail)
    (halike : ∀ v w, p v → p w → ∀ d, I d → avail d v = avail d w) (hI : I c.data)
    (hin : Within p c) (h : Covered avail c) (hstep : M.Step c a c') : Covered avail c' := by
  intro v hv
  cases hstep with
  | take hd => exact Nat.le_trans (hM.take_le hI hd v) (h v hv)
  | block hd =>
      obtain rfl | hv := Multiset.mem_cons.mp hv
      · exact le_of_eq_of_le (hM.none hI hd) (Nat.zero_le _)
      · exact h v hv
  | @retake d d' b k w hd =>
      have hle := h v hv
      have hlt := hM.take hI hd
      have hw : p w := hin.2 w (Multiset.mem_cons_self w k)
      rw [halike w v hw (hin.1 v hv) d hI,
        halike w v hw (hin.1 v hv) d' (hM.attempt_keeps hI hd)] at hlt
      simp only [Multiset.card_cons] at hle ⊢
      omega
  | @reblock d b k w hd =>
      have hzero := hM.none hI hd
      obtain rfl | hv := Multiset.mem_cons.mp hv
      · simp [hzero]
      · have hw : p w := hin.2 w (Multiset.mem_cons_self w k)
        rw [halike w v hw (hin.1 v hv) d hI] at hzero
        simp [hzero]
  | quiet hd => exact Nat.le_trans (hM.quiet hI hd v) (h v hv)
  | @wake d d' b k a w hd =>
      have hle : avail d v ≤ k.card := h v (Multiset.mem_cons_of_mem hv)
      have hsig : avail d' v ≤ avail d v + 1 := hM.signal hI hd v
      simp only [Multiset.card_cons]
      omega
  | lost hd => simp at hv
  | spurious =>
      have hle := h v (Multiset.mem_cons_of_mem hv)
      simp only [Multiset.card_cons] at hle ⊢
      omega
  | timeout => exact h v (Multiset.mem_cons_of_mem hv)

theorem covered_of_reachable (hM : M.Units I avail)
    (halike : ∀ v w, p v → p w → ∀ d, I d → avail d v = avail d w) {d : σ} (hI : I d)
    (h : M.Reachable p d c) : Covered avail c := by
  obtain ⟨tr, htr, hp⟩ := h
  have hstart : I d ∧ Within p (start d) ∧ Covered avail (start d) := by
    simp [hI, Within, Covered, start]
  have hall := htr.preserves (P := fun c => I c.data ∧ Within p c ∧ Covered avail c)
    (C := fun _ a => ∀ w, a = .enter w → p w) hstart
    (fun s a s' hs hC hstep =>
      ⟨keeps_step hM hs.1 hstep, within_step hs.2.1 hC hstep,
        covered_step hM halike hs.1 hs.2.1 hs.2.2 hstep⟩) hp
  exact hall.2.2

end Monitor

end BTron.Lib
