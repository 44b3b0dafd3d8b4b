import BlockCompiler.Proofs.Locals
import BlockCompiler.Proofs.Moments
import BlockCompiler.Proofs.Scoping
import Mathlib.Data.List.Induction

/-!
# Scopes along a run

Outside of functions, names are bound by constants only: a global is bound to the value of the last
constant of its name that was accepted, and nothing else changes the global scope. Within a
function, a name is looked up among its locals first, but no local has the name of a global while
the function is lowered, so the order plays no part.

A body that is refused leaves its locals behind, and a constant that comes later may have the name
of one of them. That does no harm: a scope is only looked at while its function is lowered, which
starts it afresh.
-/

namespace BlockCompiler

namespace Context

variable {c : Context} {d : Decl} {ds : List Decl} {ident : String} {x : Float}

/-! ## Globals -/

/-- The declaration is a constant of the name, and it is accepted. -/
def AcceptsConstant (c : Context) (ident : String) (d : Decl) : Prop :=
  ∃ value, d = .constant ident value ∧ (Lowering.decl d c).1 = .ok ()

/-- The declaration is a constant of the name that is accepted, with a value that is given as a
number, or as the name of a constant that has this value now. -/
def DefinesConstant (c : Context) (ident : String) (x : Float) (d : Decl) : Prop :=
  ∃ value, d = .constant ident value ∧ (Lowering.decl d c).1 = .ok () ∧
    (value = .number x ∨
      ∃ other, value = .name other ∧ c.scopes.get? .global other = some ⟨.number x, .double⟩)

/-- The value of a global is a number, and its type says so. -/
def DoubleGlobals (c : Context) : Prop :=
  ∀ ident b, c.scopes.get? .global ident = some b → ∃ x, b = ⟨.number x, .double⟩

theorem DefinesConstant.accepts (h : c.DefinesConstant ident x d) : c.AcceptsConstant ident d := by
  obtain ⟨value, hd, hok, -⟩ := h
  exact ⟨value, hd, hok⟩

theorem DefinesConstant.unique {y : Float} (h : c.DefinesConstant ident x d)
    (h' : c.DefinesConstant ident y d) : x = y := by
  obtain ⟨value, rfl, -, hx⟩ := h
  obtain ⟨_, ⟨⟩, -, hy⟩ := h'
  rcases hx with rfl | ⟨other, rfl, hx⟩
  · rcases hy with hy | ⟨_, hy, -⟩
    · exact Expr.number.inj hy
    · cases hy
  · rcases hy with hy | ⟨_, hother, hy⟩
    · cases hy
    · obtain rfl := Expr.name.inj hother
      have hsame := congrArg Binding.value (Option.some.inj (hx.symm.trans hy))
      exact Value.number.inj hsame

/-- Nothing but a constant that is accepted changes the global scope. -/
theorem globals_decl_of_not (hdoubles : c.DoubleGlobals)
    (h : ∀ ident, ¬c.AcceptsConstant ident d) :
    (Lowering.decl d c).2.scopes.get? .global = c.scopes.get? .global := by
  have heffect := Lowering.effect_decl d c
  generalize hr : Lowering.decl d c = r at heffect ⊢
  cases heffect with
  | refused | known | unbound => rfl
  | declared _ declares => rw [declares.scopes_eq]
  | begun _ declares => rw [globals_withFrame, declares.scopes_eq]
  | bound => exact absurd ⟨_, rfl, congrArg Prod.fst hr⟩ (h _)
  | notNumber _ not isConstant =>
    obtain ⟨other, b, hb, rfl⟩ := isConstant
    obtain ⟨y, rfl⟩ := hdoubles other b hb
    exact absurd rfl (not y)

/-- A constant that is accepted binds its name to its value, and no other name. -/
theorem globals_decl_of_accepts (hdoubles : c.DoubleGlobals) (h : c.AcceptsConstant ident d) :
    ∃ x, c.DefinesConstant ident x d ∧ ∀ name,
      (Lowering.decl d c).2.scopes.get? .global name =
        if name = ident then some ⟨.number x, .double⟩ else c.scopes.get? .global name := by
  obtain ⟨value, rfl, hok⟩ := h
  have heffect := Lowering.effect_decl (.constant ident value) c
  generalize hr : Lowering.decl (.constant ident value) c = r at heffect hok ⊢
  cases heffect with
  | refused isHead => exact absurd isHead (by simp)
  | unbound => exact absurd hok (by simp)
  | notNumber => exact absurd hok (by simp)
  | @bound _ _ x valueOk =>
    refine ⟨x, ⟨value, rfl, congrArg Prod.fst hr, ?_⟩, fun name ↦ ?_⟩
    · cases value with
      | number y =>
        obtain ⟨⟨⟩, -⟩ := Prod.mk.inj valueOk
        exact .inl rfl
      | name other =>
        rw [Lowering.constant] at valueOk
        cases hother : c.scopes.get? .global other with
        | none =>
          rw [hother] at valueOk
          exact absurd (Prod.mk.inj valueOk).1 (by simp)
        | some b =>
          rw [hother] at valueOk
          obtain ⟨y, rfl⟩ := hdoubles other b hother
          obtain ⟨⟨⟩, -⟩ := Prod.mk.inj valueOk
          exact .inr ⟨other, rfl, hother⟩
      | text | call | binary => exact absurd (Prod.mk.inj valueOk).1 (by simp)
    · change (c.bindGlobal ident (.number x)).scopes.get? .global name = _
      rw [bindGlobal, ScopeTable.get?_bind]
      simp only [true_and]
      rfl

/-- Nothing but a constant of the name that is accepted changes what a global name is bound to. -/
theorem global_decl_of_not (hdoubles : c.DoubleGlobals) (h : ¬c.AcceptsConstant ident d) :
    (Lowering.decl d c).2.scopes.get? .global ident = c.scopes.get? .global ident := by
  by_cases haccepts : ∃ name, c.AcceptsConstant name d
  · obtain ⟨name, hname⟩ := haccepts
    obtain ⟨x, -, hget⟩ := globals_decl_of_accepts hdoubles hname
    rw [hget, if_neg]
    rintro rfl
    exact h hname
  · rw [globals_decl_of_not hdoubles (not_exists.mp haccepts)]

theorem doubleGlobals_after (ds : List Decl) : (after ds).DoubleGlobals := by
  refine after_induction (P := DoubleGlobals) nofun (fun c d h ↦ ?_) ds
  intro name b hb
  by_cases haccepts : ∃ ident, c.AcceptsConstant ident d
  · obtain ⟨ident, hident⟩ := haccepts
    obtain ⟨x, -, hget⟩ := globals_decl_of_accepts h hident
    rw [hget] at hb
    split at hb
    · exact ⟨x, (Option.some.inj hb).symm⟩
    · exact h name b hb
  · rw [globals_decl_of_not h (not_exists.mp haccepts)] at hb
    exact h name b hb

/-- A global is bound to the value of the last constant of its name that was accepted. -/
theorem global_eq_some_iff {b : Binding} :
    (after ds).scopes.get? .global ident = some b ↔
      ∃ i x, HoldsAt (fun c d ↦ c.DefinesConstant ident x d) ds i ∧
        (∀ j, i < j → ¬HoldsAt (fun c d ↦ c.AcceptsConstant ident d) ds j) ∧
        b = ⟨.number x, .double⟩ := by
  induction ds using List.reverseRecOn with
  | nil =>
    refine iff_of_false nofun ?_
    rintro ⟨i, x, h, -⟩
    exact absurd h.lt (Nat.not_lt_zero i)
  | append_singleton ds d ih =>
    have hdoubles := doubleGlobals_after ds
    rw [after_concat]
    by_cases haccepts : (after ds).AcceptsConstant ident d
    · obtain ⟨x, hdefines, hget⟩ := globals_decl_of_accepts hdoubles haccepts
      rw [hget, if_pos rfl]
      constructor
      · intro hb
        refine ⟨ds.length, x, holdsAt_concat_iff.mpr (.inr ⟨rfl, hdefines⟩), fun j hj h ↦ ?_,
          (Option.some.inj hb).symm⟩
        have := h.lt
        rw [List.length_append, List.length_singleton] at this
        omega
      · rintro ⟨i, y, hi, hlast, rfl⟩
        rcases holdsAt_concat_iff.mp hi with hi | ⟨-, hdefines'⟩
        · exact absurd (holdsAt_concat_iff.mpr (.inr ⟨rfl, haccepts⟩)) (hlast _ hi.lt)
        · rw [hdefines.unique hdefines']
    · rw [global_decl_of_not hdoubles haccepts, ih]
      refine exists_congr fun i ↦ exists_congr fun x ↦ and_congr ?_ (and_congr_left' ?_)
      · rw [holdsAt_concat_iff]
        exact (or_iff_left fun h ↦ haccepts h.2.accepts).symm
      · refine forall₂_congr fun j _ ↦ not_congr ?_
        rw [holdsAt_concat_iff]
        exact (or_iff_left fun h ↦ haccepts h.2).symm

/-! ## Locals -/

/-- Within the function of the number, no local has the name of a global, and a name leads to a slot
of this function or to the number of a global. -/
structure Separates (c : Context) (id : Nat) : Prop where
  apart : ∀ name, c.scopes.get? (.function id) name = none ∨ c.scopes.get? .global name = none
  resolved : ∀ name owner b, c.scopes.resolve? (some id) name = some (owner, b) →
    owner = .function id ∧ (∃ f, c.functions[id]? = some f ∧ f.Houses name b) ∨
      owner = .global ∧ ∃ x, b = ⟨.number x, .double⟩

theorem locals_withFrame {id : Nat} {fr : Frame} :
    (c.withFrame id fr).scopes.get? (.function id) = fr.locals := by
  rw [withFrame, ScopeTable.get?_replace, if_pos rfl]

/-- Lowering looks a name up as the module resolves it within the function. -/
theorem resolve?_withFrame {id : Nat} {fr : Frame} (name : String) :
    ((c.withFrame id fr).scopes.resolve? (some id) name).map Prod.snd =
      ((fr.env c.outer).locals name <|> (fr.env c.outer).globals name) := by
  rw [ScopeTable.resolve?, Option.bind_some, locals_withFrame, globals_withFrame]
  change _ = (fr.locals name <|> c.scopes.get? .global name)
  cases fr.locals name with
  | some b => rfl
  | none => cases c.scopes.get? .global name <;> rfl

theorem separates_withFrame {id : Nat} {f : Function} {fr : Frame} (hdoubles : c.DoubleGlobals)
    (hf : c.functions[id]? = some f) (h : fr.Housed c.outer) :
    (c.withFrame id fr).Separates id := by
  refine ⟨fun name ↦ ?_, fun name owner b hresolve ↦ ?_⟩
  · rw [locals_withFrame, globals_withFrame]
    cases hlocal : fr.locals name with
    | none => exact .inl rfl
    | some b => exact .inr (h.constants name (by rw [hlocal]; rfl))
  · rw [ScopeTable.resolve?, Option.bind_some, locals_withFrame, globals_withFrame] at hresolve
    cases hlocal : fr.locals name with
    | some b' =>
      rw [hlocal] at hresolve
      obtain ⟨rfl, rfl⟩ := Prod.mk.inj (Option.some.inj hresolve)
      exact .inl ⟨rfl, fr.function, getElem?_withFrame hf, h.locals name b' hlocal⟩
    | none =>
      rw [hlocal] at hresolve
      obtain ⟨b', hglobal, heq⟩ := Option.map_eq_some_iff.mp hresolve
      obtain ⟨rfl, rfl⟩ := Prod.mk.inj heq
      exact .inr ⟨rfl, hdoubles name b' hglobal⟩

/-! ## Whole runs -/

/-- After any run of declarations, refused ones included, a global is bound to the value of the last
constant of its name that was accepted, and a declaration that is not an accepted constant leaves
the globals as they are. While a body is lowered no local has the name of a global, and a name leads
to a local of the same function or to a global. A definition that is accepted leaves no locals. -/
theorem scopes_of_run (ds : List Decl) :
    let c := after ds
    (∀ ident b, c.scopes.get? .global ident = some b ↔
      ∃ i x, HoldsAt (fun c d ↦ c.DefinesConstant ident x d) ds i ∧
        (∀ j, i < j → ¬HoldsAt (fun c d ↦ c.AcceptsConstant ident d) ds j) ∧
        b = ⟨.number x, .double⟩) ∧
      (∀ d, (∀ ident, ¬c.AcceptsConstant ident d) →
        (Lowering.decl d c).2.scopes.get? .global = c.scopes.get? .global) ∧
      (∀ head ss id c₁ f fr, Lowering.declare head c = (.ok id, c₁) →
        c₁.functions[id]? = some f →
        Lowering.Moment c₁.outer head ss (c₁.frame id f) fr →
          (c₁.withFrame id fr).Separates id ∧
          ∀ name, ((c₁.withFrame id fr).scopes.resolve? (some id) name).map Prod.snd =
            ((fr.env c₁.outer).locals name <|> (fr.env c₁.outer).globals name)) ∧
      ∀ head ss c', Lowering.decl (.function head ss) c = (.ok (), c') →
        ∃ id, c'.functionId? head.ident = some id ∧
          ∀ name, c'.scopes.get? (.function id) name = none := by
  have hdoubles := doubleGlobals_after ds
  refine ⟨fun ident b ↦ global_eq_some_iff, fun d h ↦ globals_decl_of_not hdoubles h,
    fun head ss id c₁ f fr hdeclare hf hmoment ↦ ⟨?_, resolve?_withFrame⟩,
    fun head ss c' hdecl ↦ ?_⟩
  · have hdoubles₁ : c₁.DoubleGlobals := by
      rwa [DoubleGlobals, (Lowering.declares_of_eq hdeclare).scopes_eq]
    exact separates_withFrame hdoubles₁ hf
      (hmoment.keeps (Lowering.housed_invariant _) (.enter _ _ _) fun _ _ ↦ trivial)
  · obtain ⟨id, c₁, f, _, _, _, finished, hdeclares, hf, -, -, -, hextends, rfl⟩ :=
      Lowering.exists_of_define hdecl
    refine ⟨id, ?_, fun name ↦ by rw [locals_withFrame]; rfl⟩
    rw [functionId?_withFrame hf hextends.signature, hdeclares.functionId?]

/-- The refused body of `f` leaves its local `y`, and then `y` is made a global. When `g` has bound
its parameter and its first local, no name is both, and in the end `g` has no locals. -/
theorem scopes_stale_local :
    let ds : List Decl := [.constant "x" (.number 1),
      .function ⟨.void, "f", []⟩ [.assign "y" (.text "a"), .assign "x" (.text "a")],
      .constant "y" (.name "x")]
    let head : Prototype := ⟨.void, "g", [⟨.double, "p"⟩]⟩
    let s : Stmt := .assign "q" (.text "a")
    let c := after ds
    let c₁ := (Lowering.declare head c).2
    let bound := (Lowering.bindParams c₁.outer 0 [("p", .param 0 .double)]
      ((c₁.frame 1 (Function.declared head "g")).enter head)).2
    (c.scopes.get? (.function 0) "y").isSome ∧
      c.scopes.get? .global "y" = some ⟨.number 1, .double⟩ ∧
      (c₁.withFrame 1 (Lowering.stmt c₁.outer s 0 bound).2).Separates 1 ∧
      ∀ name, (Lowering.decl (.function head []) c).2.scopes.get? (.function 1) name = none := by
  intro ds head s c c₁ bound
  obtain ⟨hglobals, -, hmoments, hleft⟩ := scopes_of_run ds
  refine ⟨rfl, (hglobals "y" _).mpr ⟨2, 1, ?_, fun j hj h ↦ ?_, rfl⟩, ?_, ?_⟩
  · exact ⟨_, rfl, .name "x", rfl, rfl, .inr ⟨"x", rfl, rfl⟩⟩
  · exact absurd h.lt (by simp [ds]; omega)
  · exact (hmoments head [s] 1 c₁ (Function.declared head "g") _ rfl rfl (.behind rfl .here)).1
  · have hok : (Lowering.decl (.function head []) c).1 = .ok () := rfl
    have hone : (Lowering.decl (.function head []) c).2.functionId? "g" = some 1 := by
      decide +kernel
    obtain ⟨id, hid, hnone⟩ :=
      hleft head [] (Lowering.decl (.function head []) c).2 (Prod.ext hok rfl)
    obtain rfl := Option.some.inj (hone.symm.trans hid)
    exact hnone

end Context

end BlockCompiler
