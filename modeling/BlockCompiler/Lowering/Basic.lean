import BlockCompiler.Lowering.Error

/-!
# Steps that may fail

A lowering step works on a state and may fail. What it did to the state before it failed stays done:
a function whose body is refused remains in its module, half built.
-/

namespace BlockCompiler

/-- A step on the state `σ` that yields an `α` or fails. -/
def Lowering (σ α : Type) : Type := σ → Except LoweringError α × σ

namespace Lowering

variable {σ α β : Type}

instance : Monad (Lowering σ) where
  pure a := fun s ↦ (.ok a, s)
  bind m f := fun s ↦
    match m s with
    | (.ok a, s) => f a s
    | (.error e, s) => (.error e, s)

def fail (e : LoweringError) : Lowering σ α := fun s ↦ (.error e, s)

/-- Fails for a cause unless a condition holds. -/
def require (cond : Prop) [Decidable cond] (e : LoweringError) : Lowering σ Unit :=
  if cond then pure () else fail e

def state : Lowering σ σ := fun s ↦ (.ok s, s)

/-- Changes the state. -/
def update (f : σ → σ) : Lowering σ Unit := fun s ↦ (.ok (), f s)

/-- Changes the state by a function that yields a value as well. -/
def updating (f : σ → α × σ) : Lowering σ α := fun s ↦
  let (a, s) := f s
  (.ok a, s)

@[simp] theorem pure_apply (a : α) (s : σ) : (pure a : Lowering σ α) s = (.ok a, s) := rfl

@[simp] theorem fail_apply (e : LoweringError) (s : σ) :
    (fail e : Lowering σ α) s = (.error e, s) := rfl

@[simp] theorem state_apply (s : σ) : (state : Lowering σ σ) s = (.ok s, s) := rfl

@[simp] theorem update_apply (f : σ → σ) (s : σ) : update f s = (.ok (), f s) := rfl

theorem bind_apply (m : Lowering σ α) (f : α → Lowering σ β) (s : σ) :
    (m >>= f) s = match m s with
      | (.ok a, s) => f a s
      | (.error e, s) => (.error e, s) := rfl

/-- A sequence succeeds if both steps do. -/
theorem bind_eq_ok_iff {m : Lowering σ α} {f : α → Lowering σ β} {s s' : σ} {b : β} :
    (m >>= f) s = (.ok b, s') ↔ ∃ a s₁, m s = (.ok a, s₁) ∧ f a s₁ = (.ok b, s') := by
  rw [bind_apply]
  rcases m s with ⟨_ | a, s₁⟩
  · simp
  · exact ⟨fun h ↦ ⟨a, s₁, rfl, h⟩, by rintro ⟨_, _, ⟨⟩, h⟩; exact h⟩

/-- A sequence fails if the first step does, or else the second. -/
theorem bind_eq_error_iff {m : Lowering σ α} {f : α → Lowering σ β} {s s' : σ}
    {e : LoweringError} :
    (m >>= f) s = (.error e, s') ↔
      m s = (.error e, s') ∨ ∃ a s₁, m s = (.ok a, s₁) ∧ f a s₁ = (.error e, s') := by
  rw [bind_apply]
  rcases m s with ⟨_ | a, s₁⟩
  · simp
  · exact ⟨fun h ↦ .inr ⟨a, s₁, rfl, h⟩, by rintro (⟨⟨⟩⟩ | ⟨_, _, ⟨⟩, h⟩); exact h⟩

instance : LawfulMonad (Lowering σ) := LawfulMonad.mk' (Lowering σ)
  (fun x ↦ by
    funext s
    change (match x s with | (.ok a, s) => _ | (.error e, s) => _) = x s
    rcases x s with ⟨_ | _, _⟩ <;> rfl)
  (fun _ _ ↦ rfl)
  (fun x _ _ ↦ by
    funext s
    simp only [bind_apply]
    rcases x s with ⟨_ | _, _⟩ <;> rfl)

end Lowering

end BlockCompiler
