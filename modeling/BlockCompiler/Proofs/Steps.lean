import BlockCompiler.Lowering.Basic

/-!
# What a step keeps

Two ways to speak of a step that may fail. `Moves R` says that the state afterwards is related to
the one before, whatever the outcome: this is how "code only grows" is stated, and it is closed
under sequences as soon as `R` is reflexive and transitive. `Triple P m Q E` also uses the value:
started where `P` holds, the step ends where `Q` holds of its value, or fails where `E` holds. A
property that is kept can be said in both ways (`moves_keeps_iff`).
-/

namespace BlockCompiler

namespace Lowering

variable {σ α β : Type}

/-- Whether a step succeeds can be decided, also where its causes of failure cannot be compared. -/
theorem eq_ok_of_isOk {ε : Type} {r : Except ε Unit} (h : r.isOk = true) : r = .ok () := by
  cases r with
  | error => exact absurd h (by simp [Except.isOk, Except.toBool])
  | ok => rfl

/-! ## Sequences that start with a known step -/

theorem bind_state_apply (f : σ → Lowering σ α) (s : σ) : (state >>= f) s = f s s := rfl

theorem require_apply (cond : Prop) [Decidable cond] (e : LoweringError) (s : σ) :
    (require cond e : Lowering σ Unit) s = (if cond then .ok () else .error e, s) := by
  unfold require
  split <;> rfl

theorem bind_require_apply (cond : Prop) [Decidable cond] (e : LoweringError)
    (f : Unit → Lowering σ α) (s : σ) :
    (require cond e >>= f) s = if cond then f () s else (.error e, s) := by
  rw [bind_apply, require_apply]
  by_cases h : cond
  · rw [if_pos h, if_pos h]
  · rw [if_neg h, if_neg h]

/-! ## Related states -/

/-- Whatever its outcome, the step leads from a state to one that `R` relates to it. -/
def Moves (R : σ → σ → Prop) (m : Lowering σ α) : Prop := ∀ s, R s (m s).2

section

variable {R : σ → σ → Prop} [Std.Refl R]

theorem moves_pure (a : α) : Moves R (pure a : Lowering σ α) := fun s ↦ Std.Refl.refl s

theorem moves_fail (e : LoweringError) : Moves R (fail e : Lowering σ α) :=
  fun s ↦ Std.Refl.refl s

theorem moves_state : Moves R (state : Lowering σ σ) := fun s ↦ Std.Refl.refl s

theorem moves_require (cond : Prop) [Decidable cond] (e : LoweringError) :
    Moves R (require cond e : Lowering σ Unit) := by
  unfold require
  split
  · exact moves_pure ()
  · exact moves_fail e

end

theorem moves_update {R : σ → σ → Prop} {f : σ → σ} (h : ∀ s, R s (f s)) : Moves R (update f) := h

theorem Moves.of_eq {R : σ → σ → Prop} {m : Lowering σ α} {s s' : σ}
    {r : Except LoweringError α} (h : Moves R m) (hm : m s = (r, s')) : R s s' := by
  have hs := h s
  rw [hm] at hs
  exact hs

theorem Moves.mono {R R' : σ → σ → Prop} {m : Lowering σ α} (h : Moves R m)
    (hR : ∀ s s', R s s' → R' s s') : Moves R' m := fun s ↦
  hR s _ (h s)

theorem Moves.bind {R : σ → σ → Prop} [Trans R R R] {m : Lowering σ α} {f : α → Lowering σ β}
    (hm : Moves R m) (hf : ∀ a, Moves R (f a)) : Moves R (m >>= f) := by
  intro s
  have h := hm s
  rw [bind_apply]
  generalize m s = r at h ⊢
  rcases r with ⟨_ | a, s₁⟩
  · exact h
  · exact Trans.trans h (hf a s₁)

/-- What holds before the step holds afterwards. -/
def Keeps (P : σ → Prop) (s s' : σ) : Prop := P s → P s'

instance (P : σ → Prop) : Std.Refl (Keeps P) := ⟨fun _ h ↦ h⟩

instance (P : σ → Prop) : Trans (Keeps P) (Keeps P) (Keeps P) := ⟨fun h₁ h₂ h ↦ h₂ (h₁ h)⟩

/-- A step moves along a reflexive relation if it keeps whatever the relation says of a state. -/
theorem Moves.of_keeps {R : σ → σ → Prop} [Std.Refl R] {m : Lowering σ α}
    (h : ∀ s₀, Moves (Keeps (R s₀)) m) : Moves R m := fun s ↦
  h s s (Std.Refl.refl s)

/-! ## Conditions before and after -/

/-- A result with a value of which `Q` holds, or a failure where `E` holds. -/
def Ends (Q : α → σ → Prop) (E : σ → Prop) : Except LoweringError α × σ → Prop
  | (.ok a, s) => Q a s
  | (.error _, s) => E s

/-- Started where `P` holds, the step ends where `Q` holds of its value, or fails where `E` holds.
-/
def Triple (P : σ → Prop) (m : Lowering σ α) (Q : α → σ → Prop) (E : σ → Prop) : Prop :=
  ∀ s, P s → Ends Q E (m s)

namespace Triple

variable {P P' : σ → Prop} {m : Lowering σ α} {Q Q' : α → σ → Prop} {E : σ → Prop}

theorem of_pure {a : α} (h : ∀ s, P s → Q a s) : Triple P (pure a) Q E := h

theorem of_fail {e : LoweringError} (h : ∀ s, P s → E s) : Triple P (fail e : Lowering σ α) Q E := h

theorem of_update {f : σ → σ} {Q : Unit → σ → Prop} (h : ∀ s, P s → Q () (f s)) :
    Triple P (update f) Q E := h

theorem bind {f : α → Lowering σ β} {R : β → σ → Prop} (hm : Triple P m Q E)
    (hf : ∀ a, Triple (Q a) (f a) R E) : Triple P (m >>= f) R E := by
  intro s hs
  have h := hm s hs
  rw [bind_apply]
  generalize m s = r at h ⊢
  rcases r with ⟨_ | a, s₁⟩
  · exact h
  · exact hf a s₁ h

/-- What the relation of the step keeps may be added on both sides. -/
theorem frame {R : σ → σ → Prop} {F : σ → Prop} (h : Triple P m Q E) (hm : Moves R m)
    (hF : ∀ s s', R s s' → F s → F s') :
    Triple (fun s ↦ P s ∧ F s) m (fun a s ↦ Q a s ∧ F s) E := by
  intro s hs
  have hpost := h s hs.1
  have hmove := hm s
  generalize m s = r at hpost hmove ⊢
  rcases r with ⟨_ | a, s₁⟩
  · exact hpost
  · exact ⟨hpost, hF s s₁ hmove hs.2⟩

theorem bind_require {cond : Prop} [Decidable cond] {e : LoweringError} {f : Unit → Lowering σ α}
    (hE : ∀ s, P s → E s) (hf : cond → Triple P (f ()) Q E) :
    Triple P (require cond e >>= f) Q E := by
  intro s hs
  rw [bind_require_apply]
  by_cases h : cond
  · rw [if_pos h]
    exact hf h s hs
  · rw [if_neg h]
    exact hE s hs

theorem weaken (h : Triple P m Q E) (hP : ∀ s, P' s → P s) (hQ : ∀ a s, Q a s → Q' a s) :
    Triple P' m Q' E := by
  intro s hs
  have h := h s (hP s hs)
  generalize m s = r at h ⊢
  rcases r with ⟨_ | a, s₁⟩
  · exact h
  · exact hQ a s₁ h

/-- Conditions that are shown apart hold together. -/
theorem and {P' E' : σ → Prop} (h : Triple P m Q E) (h' : Triple P' m Q' E') :
    Triple (fun s ↦ P s ∧ P' s) m (fun a s ↦ Q a s ∧ Q' a s) fun s ↦ E s ∧ E' s := by
  intro s hs
  have hpost := h s hs.1
  have hpost' := h' s hs.2
  generalize m s = r at hpost hpost' ⊢
  rcases r with ⟨_ | a, s₁⟩
  · exact ⟨hpost, hpost'⟩
  · exact ⟨hpost, hpost'⟩

/-- The condition after a step that succeeds. -/
theorem of_ok (h : Triple P m Q E) {s s' : σ} {a : α} (hs : P s) (hm : m s = (.ok a, s')) :
    Q a s' := by
  have h := h s hs
  rw [hm] at h
  exact h

end Triple

/-! ## Sequences that keep a property -/

section

variable {K : σ → Prop} {m : Lowering σ α} {f : α → Lowering σ β} {V : α → Prop}
  {Q : β → σ → Prop}

theorem moves_keeps_iff : Moves (Keeps K) m ↔ Triple K m (fun _ s ↦ K s) K := by
  refine forall_congr' fun s ↦ imp_congr_right fun _ ↦ ?_
  generalize m s = r
  rcases r with ⟨_ | a, s₁⟩
  · exact Iff.rfl
  · exact Iff.rfl

/-- The value of a step may be forgotten. -/
theorem Triple.keeps (hm : Triple K m (fun a s ↦ V a ∧ K s) K) : Moves (Keeps K) m :=
  moves_keeps_iff.mpr (hm.weaken (fun _ h ↦ h) fun _ _ h ↦ h.2)

/-- A step whose value satisfies `V` is followed by one that is known for such values. -/
theorem Triple.bind_value (hm : Triple K m (fun a s ↦ V a ∧ K s) K)
    (hf : ∀ a, V a → Triple K (f a) Q K) : Triple K (m >>= f) Q K :=
  hm.bind fun a s h ↦ hf a h.1 s h.2

theorem Triple.bind_keeps (hm : Triple K m (fun a s ↦ V a ∧ K s) K)
    (hf : ∀ a, V a → Moves (Keeps K) (f a)) : Moves (Keeps K) (m >>= f) :=
  moves_keeps_iff.mpr (hm.bind_value fun a ha ↦ moves_keeps_iff.mp (hf a ha))

/-- A step that keeps the property may stand in front. -/
theorem Moves.bind_triple (hm : Moves (Keeps K) m) (hf : ∀ a, Triple K (f a) Q K) :
    Triple K (m >>= f) Q K :=
  (moves_keeps_iff.mp hm).bind hf

end

end Lowering

end BlockCompiler
