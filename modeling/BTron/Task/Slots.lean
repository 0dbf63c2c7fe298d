import BTron.Lib.Run
import BTron.Lib.Search
import BTron.Task
import Mathlib.Data.Multiset.AddSub

namespace BTron.Task

open Lib

-- The table with what has become of the tasks, each numbered by its creation.
structure World where
  tasks : Tasks
  -- how many tasks have been created, and those that have not yet ended
  created : Nat
  live : Finset Nat
  -- the task that last took a slot
  owner : Fin maxTasks → Option Nat
  -- the threads that run, with their task and its slot
  threads : Multiset (Nat × Fin maxTasks)

def World.start : World := ⟨.start, 0, ∅, fun _ => none, 0⟩

inductive Event
  | cre (pkCtsk : Option TCtsk)
  | sta (tskid : Int) (exinf : Nat) (rc : Int) (thread : Nat)
  -- the task function returns
  | ret (n : Nat) (i : Fin maxTasks)
  | ext (n : Nat) (i : Fin maxTasks)

def World.create (w : World) (i : Fin maxTasks) (tasks : Tasks) : World :=
  { w with
      tasks := tasks
      created := w.created + 1
      live := insert w.created w.live
      owner := Function.update w.owner i (some w.created) }

-- A task has ended when a thread that runs it has.
def World.finish (w : World) (n : Nat) (i : Fin maxTasks) (tasks : Tasks) : World :=
  { w with tasks := tasks, live := w.live.erase n, threads := w.threads.erase (n, i) }

inductive Move (core : Core) : World → Event → World → Prop
  | created {w pk tasks} (i : Fin maxTasks) :
      core.creTsk w.tasks pk = (tasks, ((i : Nat) : Int) + 1) →
      Move core w (.cre pk) (w.create i tasks)
  | notCreated {w pk tasks er} : core.creTsk w.tasks pk = (tasks, er) → er < 0 →
      Move core w (.cre pk) { w with tasks := tasks }
  | started {w id exinf rc thread tasks i n} :
      core.staTsk w.tasks id exinf rc thread = (tasks, E_OK) → slotOf id = some i →
      w.owner i = some n →
      Move core w (.sta id exinf rc thread)
        { w with tasks := tasks, threads := (n, i) ::ₘ w.threads }
  | notStarted {w id exinf rc thread tasks er} :
      core.staTsk w.tasks id exinf rc thread = (tasks, er) → er ≠ E_OK →
      Move core w (.sta id exinf rc thread) { w with tasks := tasks }
  | ret {w n i} : (n, i) ∈ w.threads →
      Move core w (.ret n i) (w.finish n i (core.returned w.tasks i))
  | ext {w n i} : (n, i) ∈ w.threads →
      Move core w (.ext n i) (w.finish n i (core.extTsk w.tasks i))

-- The descriptors `cre_tsk` takes.
def Core.Valid : Core → TCtsk → Prop
  | .posix, pk => pk.task ≠ 0
  | .smpHosted, _ => True

-- A slot is there for a new task whenever fewer tasks than slots have not yet ended, and the
-- id of a task that has ended does not exist until it is created again.
structure Recycled (core : Core) (w : World) : Prop where
  creates : ∀ pk, core.Valid pk → w.live.card < maxTasks → 0 < (core.creTsk w.tasks (some pk)).2
  noexs : ∀ i n, w.owner i = some n → n ∉ w.live →
    (∀ exinf rc thread, (core.staTsk w.tasks ((i : Nat) + 1) exinf rc thread).2 = E_NOEXS) ∧
      wupCheck w.tasks ((i : Nat) + 1) = .error E_NOEXS

-- No task ends whose slot stays active: in the POSIX core by `ext_tsk`, in the SMP core at all.
def Cleared (core : Core) (w : World) : Event → Prop
  | .ret n i => core = .posix ∨ ¬(w.owner i = some n ∧ (w.tasks i).active = true)
  | .ext n i => ¬(w.owner i = some n ∧ (w.tasks i).active = true)
  | .cre _ | .sta .. => True

-- The slots marked active are those of tasks that have not ended.
def World.Exact (w : World) : Prop :=
  ∀ i n, w.owner i = some n → n ∉ w.live → (w.tasks i).active = false

structure World.Owned (w : World) : Prop where
  owner_lt : ∀ i n, w.owner i = some n → n < w.created
  owner_inj : ∀ i j n, w.owner i = some n → w.owner j = some n → i = j
  active : ∀ i, (w.tasks i).active = true → w.owner i ≠ none
  threads : ∀ t ∈ w.threads, t.1 < w.created ∧ ∀ i, w.owner i = some t.1 → i = t.2

theorem findFree_eq_some {t : Tasks} {i : Fin maxTasks} (h : findFree t = some i) :
    (t i).active = false := by
  have hi := Fin.eq_true_of_find?_eq_some h
  simpa using hi

theorem exists_findFree {t : Tasks} {i : Fin maxTasks} (h : (t i).active = false) :
    ∃ j, findFree t = some j := by
  apply Option.isSome_iff_exists.mp
  apply Fin.isSome_find?_of_eq_true
  simpa using h

theorem creTsk_of_free {core : Core} {t : Tasks} {pk : TCtsk} {i : Fin maxTasks}
    (hpk : core.Valid pk) (h : findFree t = some i) :
    core.creTsk t (some pk) = (t.modify i (.create i pk), ((i : Nat) : Int) + 1) := by
  cases core with
  | posix =>
      have htask : pk.task ≠ 0 := hpk
      simp only [Core.creTsk, Posix.creTsk, if_neg htask, h]
  | smpHosted =>
      unfold Core.creTsk Smp.creTsk
      simp only [h]

theorem creTsk_of_full {core : Core} {t : Tasks} {pk : TCtsk} (h : findFree t = none) :
    ∃ er, er < 0 ∧ core.creTsk t (some pk) = (t, er) := by
  cases core with
  | posix =>
      by_cases htask : pk.task = 0
      · exact ⟨E_PAR, by decide, by simp only [Core.creTsk, Posix.creTsk, if_pos htask]⟩
      · exact ⟨E_NOMEM, by decide, by simp only [Core.creTsk, Posix.creTsk, if_neg htask, h]⟩
  | smpHosted =>
      refine ⟨E_LIMIT, by decide, ?_⟩
      unfold Core.creTsk Smp.creTsk
      simp only [h]

theorem creTsk_of_invalid {core : Core} {t : Tasks} {pk : TCtsk} (h : ¬core.Valid pk) :
    core.creTsk t (some pk) = (t, E_PAR) := by
  cases core with
  | posix =>
      have htask : pk.task = 0 := not_not.mp h
      simp only [Core.creTsk, Posix.creTsk, if_pos htask]
  | smpHosted => exact absurd trivial h

-- What `cre_tsk` does: it fills a free slot, or fails.
theorem creTsk_cases (core : Core) (t : Tasks) (pk : Option TCtsk) :
    (∃ p i, pk = some p ∧ findFree t = some i ∧
        core.creTsk t pk = (t.modify i (.create i p), ((i : Nat) : Int) + 1)) ∨
      ∃ er, er < 0 ∧ core.creTsk t pk = (t, er) := by
  cases pk with
  | none => cases core <;> exact .inr ⟨E_PAR, by decide, rfl⟩
  | some p =>
      by_cases hp : core.Valid p
      · cases hfree : findFree t with
        | none => exact .inr (creTsk_of_full hfree)
        | some i => exact .inl ⟨p, i, rfl, rfl, creTsk_of_free hp hfree⟩
      · exact .inr ⟨E_PAR, by decide, creTsk_of_invalid hp⟩

-- `sta_tsk` leaves the active flags as they are.
theorem staTsk_active {core : Core} {t tasks : Tasks} {id : Int} {exinf : Nat} {rc : Int}
    {thread : Nat} {er : ER} (h : core.staTsk t id exinf rc thread = (tasks, er))
    (j : Fin maxTasks) : (tasks j).active = (t j).active := by
  obtain rfl : (core.staTsk t id exinf rc thread).1 = tasks := congrArg Prod.fst h
  have hmodify : ∀ i f, (∀ tsk : ItronTask, (f tsk).active = tsk.active) →
      (t.modify i f j).active = (t j).active := by
    intro i f hf
    by_cases hji : j = i
    · subst hji
      rw [Tasks.modify_self, hf]
    · rw [Tasks.modify_of_ne f hji]
  cases core with
  | posix =>
      rw [Core.staTsk, Posix.staTsk]
      split
      · rfl
      · split
        · rfl
        · exact hmodify _ _ fun _ => rfl
  | smpHosted =>
      rw [Core.staTsk, Smp.staTsk]
      split
      · rfl
      · split
        · rfl
        · exact hmodify _ _ fun _ => rfl

theorem staTsk_inactive (core : Core) {t : Tasks} {i : Fin maxTasks} (h : (t i).active = false)
    (exinf : Nat) (rc : Int) (thread : Nat) :
    (core.staTsk t ((i : Nat) + 1) exinf rc thread).2 = E_NOEXS := by
  cases core with
  | posix => simp [Core.staTsk, Posix.staTsk, slotOf_val, h]
  | smpHosted => simp [Core.staTsk, Smp.staTsk, slotOf_val, h]

-- The active slots belong to as many tasks that have not ended.
theorem exists_free {w : World} (h : w.Owned) (hexact : w.Exact) (hlive : w.live.card < maxTasks) :
    ∃ i, (w.tasks i).active = false := by
  have hfree : ∃ i, ¬(w.tasks i).active = true := by
    apply exists_free_slot _ w.owner (w.live.image some)
    · intro i hi
      obtain ⟨n, hn⟩ := Option.ne_none_iff_exists'.mp (h.active i hi)
      rw [hn, Finset.mem_image]
      refine ⟨n, ?_, rfl⟩
      by_contra hdead
      exact Bool.false_ne_true ((hexact i n hn hdead).symm.trans hi)
    · intro i j hi _ hij
      obtain ⟨n, hn⟩ := Option.ne_none_iff_exists'.mp (h.active i hi)
      exact h.owner_inj i j n hn (hij ▸ hn)
    · rwa [Finset.card_image_of_injective _ (Option.some_injective _)]
  simpa using hfree

theorem recycled_iff_exact {core : Core} {w : World} (h : w.Owned) : Recycled core w ↔ w.Exact := by
  constructor
  · intro hrec i n hn hdead
    have hnoexs := (hrec.noexs i n hn hdead).2
    cases hi : (w.tasks i).active with
    | false => rfl
    | true =>
        rw [wupCheck_of_active i hi] at hnoexs
        cases hnoexs
  · intro hexact
    refine ⟨fun pk hpk hlive => ?_, fun i n hn hdead => ?_⟩
    · obtain ⟨i, hi⟩ := exists_free h hexact hlive
      obtain ⟨j, hj⟩ := exists_findFree hi
      rw [creTsk_of_free hpk hj]
      simp only
      omega
    · have hi := hexact i n hn hdead
      exact ⟨staTsk_inactive core hi, wupCheck_of_not_active i hi⟩

theorem creTsk_success {core : Core} {t tasks : Tasks} {pk : Option TCtsk} {i : Fin maxTasks}
    (h : core.creTsk t pk = (tasks, ((i : Nat) : Int) + 1)) :
    ∃ p, tasks = t.modify i (.create i p) := by
  obtain ⟨p, j, -, -, hj⟩ | ⟨er, her, hfail⟩ := creTsk_cases core t pk
  · obtain ⟨rfl, hij⟩ := Prod.mk.inj (h.symm.trans hj)
    obtain rfl : i = j := Fin.ext (by omega)
    exact ⟨p, rfl⟩
  · obtain ⟨-, rfl⟩ := Prod.mk.inj (h.symm.trans hfail)
    omega

theorem creTsk_failure {core : Core} {t tasks : Tasks} {pk : Option TCtsk} {er : Int}
    (h : core.creTsk t pk = (tasks, er)) (her : er < 0) : tasks = t := by
  obtain ⟨p, j, -, -, hj⟩ | ⟨_, -, hfail⟩ := creTsk_cases core t pk
  · obtain ⟨-, rfl⟩ := Prod.mk.inj (h.symm.trans hj)
    omega
  · exact (Prod.mk.inj (h.symm.trans hfail)).1

theorem active_of_returned {core : Core} {t : Tasks} {i j : Fin maxTasks}
    (h : ((core.returned t i) j).active = true) : (t j).active = true := by
  cases core with
  | posix =>
      simp only [Core.returned, Posix.taskWrapper] at h
      by_cases hji : j = i
      · subst hji
        simp at h
      · rwa [Tasks.modify_of_ne _ hji] at h
  | smpHosted => exact h

theorem owned_create {w : World} (h : w.Owned) (i : Fin maxTasks) (p : TCtsk) :
    (w.create i (w.tasks.modify i (.create i p))).Owned := by
  have hother : ∀ {j n}, (w.create i (w.tasks.modify i (.create i p))).owner j = some n →
      (j = i ∧ n = w.created) ∨ (j ≠ i ∧ w.owner j = some n) := by
    intro j n hj
    by_cases hji : j = i
    · subst hji
      simp only [World.create, Function.update_self, Option.some.injEq] at hj
      exact .inl ⟨rfl, hj.symm⟩
    · simp only [World.create, Function.update_of_ne hji] at hj
      exact .inr ⟨hji, hj⟩
  constructor
  · intro j n hj
    simp only [World.create]
    obtain ⟨-, rfl⟩ | ⟨-, hold⟩ := hother hj
    · omega
    · have hlt := h.owner_lt j n hold
      omega
  · intro j k n hj hk
    obtain ⟨rfl, hn⟩ | ⟨-, hold⟩ := hother hj
    · obtain ⟨rfl, -⟩ | ⟨-, hold⟩ := hother hk
      · rfl
      · have hlt := h.owner_lt k n hold
        omega
    · obtain ⟨-, hn⟩ | ⟨-, hold'⟩ := hother hk
      · have hlt := h.owner_lt j n hold
        omega
      · exact h.owner_inj j k n hold hold'
  · intro j hj
    by_cases hji : j = i
    · subst hji
      simp [World.create]
    · simp only [World.create, Tasks.modify_of_ne _ hji, Function.update_of_ne hji] at hj ⊢
      exact h.active j hj
  · intro t ht
    obtain ⟨hlt, hslot⟩ := h.threads t ht
    refine ⟨Nat.lt_succ_of_lt hlt, fun j hj => ?_⟩
    obtain ⟨-, hn⟩ | ⟨-, hold⟩ := hother hj
    · omega
    · exact hslot j hold

-- Threads and owners as they were, and no slot newly active.
theorem World.Owned.of_active {w : World} (h : w.Owned) {tasks : Tasks}
    (htasks : ∀ i, (tasks i).active = true → (w.tasks i).active = true) :
    ({ w with tasks := tasks } : World).Owned :=
  ⟨h.owner_lt, h.owner_inj, fun i hi => h.active i (htasks i hi), h.threads⟩

theorem owned_finish {w : World} (h : w.Owned) (n : Nat) (i : Fin maxTasks) {tasks : Tasks}
    (htasks : ∀ i, (tasks i).active = true → (w.tasks i).active = true) :
    (w.finish n i tasks).Owned :=
  ⟨h.owner_lt, h.owner_inj, fun i hi => h.active i (htasks i hi),
    fun t ht => h.threads t (Multiset.mem_of_mem_erase ht)⟩

theorem owned_step {core : Core} {w w' : World} {e : Event} (h : w.Owned)
    (hmove : Move core w e w') : w'.Owned := by
  cases hmove with
  | created i hcre =>
      obtain ⟨p, rfl⟩ := creTsk_success hcre
      exact owned_create h i p
  | notCreated hcre her =>
      obtain rfl := creTsk_failure hcre her
      exact h
  | started hsta _ hn =>
      have hsame := h.of_active fun j hj => (staTsk_active hsta j).symm.trans hj
      refine ⟨hsame.owner_lt, hsame.owner_inj, hsame.active, fun t ht => ?_⟩
      obtain rfl | ht := Multiset.mem_cons.mp ht
      · exact ⟨h.owner_lt _ _ hn, fun j hj => h.owner_inj j _ _ hj hn⟩
      · exact h.threads t ht
  | notStarted hsta => exact h.of_active fun j hj => (staTsk_active hsta j).symm.trans hj
  | ret => exact owned_finish h _ _ fun _ => active_of_returned
  | ext => exact owned_finish h _ _ fun _ hj => by cases core <;> exact hj

-- The end of a task that leaves the table as it is.
theorem exact_finish_iff {w : World} (h : w.Owned) (hexact : w.Exact) {n : Nat} {i : Fin maxTasks}
    (ht : (n, i) ∈ w.threads) :
    (w.finish n i w.tasks).Exact ↔ ¬(w.owner i = some n ∧ (w.tasks i).active = true) := by
  constructor
  · rintro hexact' ⟨hn, hi⟩
    have hinactive := hexact' i n hn (Finset.notMem_erase n w.live)
    simp only [World.finish, hi] at hinactive
    cases hinactive
  · intro hnot j m hm hdead
    by_cases hmn : m = n
    · subst hmn
      have howner : w.owner j = some m := hm
      obtain rfl := (h.threads _ ht).2 j howner
      have hinactive : (w.tasks j).active = false := by simpa [howner] using hnot
      exact hinactive
    · exact hexact j m hm fun hlive => hdead (Finset.mem_erase.mpr ⟨hmn, hlive⟩)

theorem exact_returned {w : World} (h : w.Owned) (hexact : w.Exact) {n : Nat} {i : Fin maxTasks}
    (ht : (n, i) ∈ w.threads) : (w.finish n i (Posix.taskWrapper w.tasks i)).Exact := by
  intro j m hm hdead
  by_cases hji : j = i
  · subst hji
    simp [World.finish, Posix.taskWrapper]
  · have hmn : m ≠ n := by
      rintro rfl
      exact hji ((h.threads _ ht).2 j hm)
    simp only [World.finish, Posix.taskWrapper, Tasks.modify_of_ne _ hji]
    exact hexact j m hm fun hlive => hdead (Finset.mem_erase.mpr ⟨hmn, hlive⟩)

theorem exact_create {w : World} (hexact : w.Exact) (i : Fin maxTasks) (p : TCtsk) :
    (w.create i (w.tasks.modify i (.create i p))).Exact := by
  intro j n hn hdead
  by_cases hji : j = i
  · subst hji
    simp only [World.create, Function.update_self, Option.some.injEq] at hn
    subst hn
    exact absurd (Finset.mem_insert_self _ _) hdead
  · simp only [World.create, Function.update_of_ne hji, Tasks.modify_of_ne _ hji] at hn ⊢
    exact hexact j n hn fun hlive => hdead (Finset.mem_insert_of_mem hlive)

theorem exact_step_iff {core : Core} {w w' : World} {e : Event} (h : w.Owned) (hexact : w.Exact)
    (hmove : Move core w e w') : w'.Exact ↔ Cleared core w e := by
  cases hmove with
  | created i hcre =>
      obtain ⟨p, rfl⟩ := creTsk_success hcre
      exact ⟨fun _ => trivial, fun _ => exact_create hexact i p⟩
  | notCreated hcre her =>
      obtain rfl := creTsk_failure hcre her
      exact ⟨fun _ => trivial, fun _ => hexact⟩
  | started hsta | notStarted hsta =>
      refine ⟨fun _ => trivial, fun _ j m hm hdead => ?_⟩
      exact (staTsk_active hsta j).trans (hexact j m hm hdead)
  | ret ht =>
      cases core with
      | posix => exact ⟨fun _ => .inl rfl, fun _ => exact_returned h hexact ht⟩
      | smpHosted =>
          rw [Cleared, or_iff_right (by simp)]
          exact exact_finish_iff h hexact ht
  | ext ht => cases core <;> exact exact_finish_iff h hexact ht

theorem recycled_step_iff {core : Core} {w w' : World} {e : Event} (h : w.Owned)
    (hrec : Recycled core w) (hmove : Move core w e w') : Recycled core w' ↔ Cleared core w e := by
  rw [recycled_iff_exact (owned_step h hmove)]
  exact exact_step_iff h ((recycled_iff_exact h).mp hrec) hmove

theorem owned_start : World.start.Owned := by
  constructor <;> simp [World.start, Tasks.start, ItronTask.zero]

-- One task is created and started.
def World.one (core : Core) : World :=
  ⟨core.oneTask, 1, {0}, Function.update (fun _ => none) 0 (some 0), {(0, 0)}⟩

theorem one_reached (core : Core) : ∃ tr, Trace (Move core) .start tr (.one core) := by
  have hcre : Move core .start (.cre (some ⟨0, 0, 1, 0, 0⟩)) _ :=
    .created 0 (creTsk_of_free (by cases core <;> simp [Core.Valid]) (by decide))
  have hsta : Move core (World.start.create 0 (Tasks.start.modify 0 (.create 0 ⟨0, 0, 1, 0, 0⟩)))
      (.sta 1 0 0 7) (.one core) := by
    cases core <;> exact .started rfl rfl rfl
  exact ⟨_, .next (.next .start hcre) hsta⟩

end BTron.Task
