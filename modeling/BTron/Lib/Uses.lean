import Mathlib.Data.List.Basic

namespace BTron.Lib

-- What a program does to a resource: it reads or writes it, or gives it back.
inductive Use (ρ : Type)
  | touch (r : ρ)
  | free (r : ρ)
deriving DecidableEq

variable {ρ α β : Type}

def Use.of : Use ρ → ρ
  | touch r | free r => r

-- Nothing is done to a resource after it is given back.
def Tidy (log : List (Use ρ)) : Prop := log.Pairwise fun a b => a ≠ .free b.of

instance [DecidableEq ρ] (log : List (Use ρ)) : Decidable (Tidy log) :=
  inferInstanceAs (Decidable (List.Pairwise _ _))

-- Nothing is given back.
def Kept (log : List (Use ρ)) : Prop := ∀ r, .free r ∉ log

variable {l m : List (Use ρ)} {r : ρ}

theorem Kept.tidy (h : Kept l) : Tidy l :=
  List.pairwise_of_forall_mem_list fun _ ha b _ heq => h b.of (heq ▸ ha)

theorem kept_append : Kept (l ++ m) ↔ Kept l ∧ Kept m := by
  simp [Kept, not_or, forall_and]

theorem Kept.tidy_append (h : Kept l) : Tidy (l ++ m) ↔ Tidy m := by
  rw [Tidy, List.pairwise_append]
  refine ⟨fun htidy => htidy.2.1, fun htidy => ⟨h.tidy, htidy, ?_⟩⟩
  rintro a ha b - rfl
  exact h b.of ha

-- A resource that has been given back is used.
theorem not_tidy {b : Use ρ} (hfree : .free r ∈ l) (hb : b ∈ m) (hof : b.of = r) :
    ¬Tidy (l ++ m) := by
  intro htidy
  apply (List.pairwise_append.mp htidy).2.2 _ hfree b hb
  rw [hof]

-- A computation together with what it does to its resources, oldest first.
@[ext]
structure Uses (ρ α : Type) where
  val : α
  log : List (Use ρ)

namespace Uses

instance : Monad (Uses ρ) where
  pure a := ⟨a, []⟩
  bind x f := ⟨(f x.val).val, x.log ++ (f x.val).log⟩

def touch (r : ρ) : Uses ρ Unit := ⟨(), [.touch r]⟩

def free (r : ρ) : Uses ρ Unit := ⟨(), [.free r]⟩

def Tidy (x : Uses ρ α) : Prop := Lib.Tidy x.log

def Kept (x : Uses ρ α) : Prop := Lib.Kept x.log

instance [DecidableEq ρ] (x : Uses ρ α) : Decidable x.Tidy :=
  inferInstanceAs (Decidable (Lib.Tidy x.log))

@[simp] theorem val_pure (a : α) : (pure a : Uses ρ α).val = a := rfl
@[simp] theorem log_pure (a : α) : (pure a : Uses ρ α).log = [] := rfl

@[simp] theorem val_bind (x : Uses ρ α) (f : α → Uses ρ β) :
    (x >>= f).val = (f x.val).val := rfl

@[simp] theorem log_bind (x : Uses ρ α) (f : α → Uses ρ β) :
    (x >>= f).log = x.log ++ (f x.val).log := rfl

@[simp] theorem log_touch (r : ρ) : (touch r).log = [.touch r] := rfl
@[simp] theorem log_free (r : ρ) : (free r).log = [.free r] := rfl

@[simp] theorem kept_pure (a : α) : (pure a : Uses ρ α).Kept := by
  simp [Kept, Lib.Kept]

@[simp] theorem kept_touch (r : ρ) : (touch r).Kept := by
  simp [Kept, Lib.Kept]

@[simp] theorem kept_bind (x : Uses ρ α) (f : α → Uses ρ β) :
    (x >>= f).Kept ↔ x.Kept ∧ (f x.val).Kept := kept_append

variable {x : Uses ρ α}

theorem Kept.tidy (h : x.Kept) : x.Tidy := Lib.Kept.tidy h

-- What gives nothing back may come before anything.
theorem Kept.tidy_bind (h : x.Kept) (f : α → Uses ρ β) : (x >>= f).Tidy ↔ (f x.val).Tidy :=
  Lib.Kept.tidy_append h

@[simp] theorem tidy_touch_bind (r : ρ) (f : Unit → Uses ρ β) :
    (touch r >>= f).Tidy ↔ (f ()).Tidy := (kept_touch r).tidy_bind f

@[simp] theorem tidy_bind_pure (x : Uses ρ α) (f : α → β) :
    (x >>= fun a => pure (f a)).Tidy ↔ x.Tidy := by
  simp [Tidy]

theorem not_tidy_bind {f : α → Uses ρ β} {b : Use ρ} (hfree : .free r ∈ x.log)
    (hb : b ∈ (f x.val).log) (hof : b.of = r) : ¬(x >>= f).Tidy :=
  Lib.not_tidy hfree hb hof

end Uses

end BTron.Lib
