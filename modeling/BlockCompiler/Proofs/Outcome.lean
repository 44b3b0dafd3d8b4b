import BlockCompiler.Program.Parser

/-!
# Steps of the parser that succeed

A parsing step yields a value and leaves tokens behind (`Outcome.Yields`). The bound that an outcome
carries matters for termination only and is left out here. A sequence of steps yields something if
its steps do, one after the other.
-/

namespace BlockCompiler

namespace Outcome

variable {α β : Type} {m n : Nat} {rest : List Token}

/-- The step succeeds with the value and leaves the tokens. -/
def Yields (o : Outcome α n) (a : α) (rest : List Token) : Prop := ∃ h, o = ok a rest h

theorem Yields.length_lt {o : Outcome α n} {a : α} (h : o.Yields a rest) : rest.length < n := h.1

@[simp] theorem yields_ok {a b : α} {r : List Token} {h : r.length < n} :
    (ok a r h : Outcome α n).Yields b rest ↔ a = b ∧ r = rest := by
  constructor
  · rintro ⟨_, heq⟩
    exact Outcome.ok.inj heq
  · rintro ⟨rfl, rfl⟩
    exact ⟨h, rfl⟩

@[simp] theorem not_yields_error {a : α} {cause : ParseError} {r : List Token} :
    ¬(error cause r : Outcome α n).Yields a rest := by
  rintro ⟨_, heq⟩
  exact absurd heq (by simp)

theorem yields_andThen {o : Outcome α n}
    {f : α → (rest : List Token) → rest.length < n → Outcome β m} {b : β} :
    (o.andThen f).Yields b rest ↔
      ∃ a r, ∃ h : r.length < n, o.Yields a r ∧ (f a r h).Yields b rest := by
  cases o with
  | ok a r h =>
    simp only [andThen, yields_ok]
    constructor
    · exact fun hf ↦ ⟨a, r, h, ⟨rfl, rfl⟩, hf⟩
    · rintro ⟨_, _, _, ⟨rfl, rfl⟩, hf⟩
      exact hf
  | error => simp [andThen]

/-- A step that succeeds is followed by one that does. -/
theorem Yields.andThen {o : Outcome α n}
    {f : α → (rest : List Token) → rest.length < n → Outcome β m} {a : α} {b : β}
    {r : List Token} (h : o.Yields a r) (hf : ∀ hr, (f a r hr).Yields b rest) :
    (o.andThen f).Yields b rest :=
  yields_andThen.mpr ⟨a, r, h.length_lt, h, hf h.length_lt⟩

@[simp] theorem yields_map {o : Outcome α n} {f : α → β} {b : β} :
    (o.map f).Yields b rest ↔ ∃ a, o.Yields a rest ∧ f a = b := by
  cases o with
  | ok a r h =>
    simp only [map, yields_ok]
    constructor
    · rintro ⟨rfl, rfl⟩
      exact ⟨a, ⟨rfl, rfl⟩, rfl⟩
    · rintro ⟨_, ⟨rfl, rfl⟩, rfl⟩
      exact ⟨rfl, rfl⟩
  | error => simp [map]

@[simp] theorem yields_widen {o : Outcome α n} {h : n ≤ m} {a : α} :
    (o.widen h).Yields a rest ↔ o.Yields a rest := by
  cases o with
  | ok => simp [widen]
  | error => simp [widen]

theorem Yields.map {o : Outcome α n} {f : α → β} {a : α} (h : o.Yields a rest) :
    (o.map f).Yields (f a) rest :=
  yields_map.mpr ⟨a, h, rfl⟩

theorem Yields.widen {o : Outcome α n} {hle : n ≤ m} {a : α} (h : o.Yields a rest) :
    (o.widen hle).Yields a rest :=
  yields_widen.mpr h

/-- The value of a step that succeeds, without the tokens left. -/
theorem result_eq_ok_iff {o : Outcome α n} {a : α} :
    o.result = .ok a ↔ ∃ rest, o.Yields a rest := by
  cases o with
  | ok a' r h =>
    simp only [result, Except.ok.injEq, yields_ok]
    exact ⟨fun heq ↦ ⟨r, heq, rfl⟩, fun ⟨_, heq, _⟩ ↦ heq⟩
  | error => simp [result]

@[simp] theorem result_map {o : Outcome α n} {f : α → β} : (o.map f).result = o.result.map f := by
  cases o <;> rfl

@[simp] theorem result_widen {o : Outcome α n} {h : n ≤ m} : (o.widen h).result = o.result := by
  cases o <;> rfl

theorem exists_yields_of_map_result {o : Outcome α n} {f : α → β} {b : β}
    (h : o.result.map f = .ok b) : ∃ a rest, o.Yields a rest ∧ f a = b := by
  cases o with
  | ok a rest hlt => exact ⟨a, rest, ⟨hlt, rfl⟩, Except.ok.inj h⟩
  | error => exact absurd h (by simp [result, Except.map])

end Outcome

namespace Parse

variable {ts rest : List Token} {cause : ParseError}

theorem yields_expect {f : Fixed} {u : Unit} :
    (expect f cause ts).Yields u rest ↔ ts = .fixed f :: rest := by
  unfold expect
  split
  · next g r =>
    split
    · next hg => simp [hg]
    · next hg => simp [hg]
  · next hne =>
    refine iff_of_false Outcome.not_yields_error fun heq ↦ ?_
    exact hne _ _ heq

theorem yields_expectName {ident : String} :
    (expectName cause ts).Yields ident rest ↔ ts = .name ident :: rest := by
  unfold expectName
  split
  · simp
  · next hne => exact iff_of_false Outcome.not_yields_error fun heq ↦ hne _ _ heq

theorem yields_expect_self {f : Fixed} :
    (expect f cause (.fixed f :: ts)).Yields () ts :=
  yields_expect.mpr rfl

theorem yields_expectName_self {ident : String} :
    (expectName cause (.name ident :: ts)).Yields ident ts :=
  yields_expectName.mpr rfl

theorem nextDeclaration?_of_nil (h : skipSemis ts = []) : nextDeclaration? ts = none := by
  unfold nextDeclaration?
  split
  · rfl
  · next hcons _ => exact absurd (h.symm.trans hcons) (by simp)

theorem nextDeclaration?_of_cons {t : Token} (h : skipSemis ts = t :: rest) :
    ∃ hle, nextDeclaration? ts = some ((declaration t rest).widen hle) := by
  unfold nextDeclaration?
  split
  · next hnil _ => exact absurd (h.symm.trans hnil) (by simp)
  · next hle hcons _ =>
    obtain ⟨rfl, rfl⟩ := List.cons.inj (h.symm.trans hcons)
    exact ⟨hle, rfl⟩

end Parse

end BlockCompiler
