import BlockCompiler.Proofs.Flow

/-!
# Lowering accepts what the checker accepts

Lowering decides about a program while it builds code: it compares types of values, looks for
terminators and for uses of blocks, and reads the tables of the module. The checker has none of
these and comes to the same decision, with the same cause, for every declaration of every sequence
(`outcomes_eq`).

The two run in step. What they agree on is stated for one outcome at a time (`Agrees`): either both
fail for the same cause, or both succeed with related results. Sequences of steps agree if their
parts do.
-/

namespace BlockCompiler

/-! ## Steps that agree -/

/-- The outcome of a check and that of a step are the same failure, or results that `R` relates. -/
def Agrees {α β σ : Type} (R : α → β → σ → Prop) :
    Except LoweringError α → Except LoweringError β × σ → Prop
  | .ok a, (.ok b, s) => R a b s
  | .error e, (.error e', _) => e = e'
  | _, _ => False

section

variable {α α' β β' σ : Type} {R : α → β → σ → Prop} {R' : α' → β' → σ → Prop} {s : σ}

theorem Agrees.bind {r : Except LoweringError α} {m : Lowering σ β}
    {f : α → Except LoweringError α'} {g : β → Lowering σ β'} (h : Agrees R r (m s))
    (hfg : ∀ a b s', m s = (.ok b, s') → R a b s' → Agrees R' (f a) (g b s')) :
    Agrees R' (r >>= f) ((m >>= g) s) := by
  rw [Lowering.bind_apply]
  rcases hm : m s with ⟨e' | b, s'⟩ <;> rw [hm] at h <;> rcases r with e | a
  · exact h
  · exact h.elim
  · exact h.elim
  · exact hfg a b s' hm h

theorem Agrees.require {cond cond' : Prop} [Decidable cond] [Decidable cond'] {e : LoweringError}
    {r : Except LoweringError α} {m : Lowering σ β} (hiff : cond ↔ cond')
    (h : cond → Agrees R r (m s)) :
    Agrees R (do Checker.ensure cond e; r) ((do Lowering.require cond' e; m) s) := by
  rw [Lowering.bind_require_apply, Checker.ensure]
  by_cases hcond : cond
  · rw [if_pos hcond, if_pos (hiff.mp hcond)]
    exact h hcond
  · rw [if_neg hcond, if_neg fun hcond' ↦ hcond (hiff.mpr hcond')]
    exact rfl

end

/-! ## Expressions -/

/-- The value belongs to a type whose values can be stored. -/
structure Value.Fits (v : Value) (ty : Ty) : Prop where
  storable : ty.isStorable = true
  kind : v.kind = ty.kind

theorem Value.Fits.ty_eq {v : Value} {ty : Ty} (h : v.Fits ty) : v.ty = ty := by
  rw [Value.ty, h.kind]
  cases ty with
  | double | string => rfl
  | void | invalid => exact absurd h.storable (by simp [Ty.isStorable])

theorem Value.Fits.isDouble_iff {v : Value} {ty : Ty} (h : v.Fits ty) :
    v.kind = .double ↔ ty = .double := by
  rw [h.kind]
  cases ty with
  | double | string => simp [Ty.kind]
  | void | invalid => exact absurd h.storable (by simp [Ty.isStorable])

/-- A local has a type if and only if it is bound to a slot of that type. -/
def Typed (locals : Bindings Binding) (types : Bindings Ty) : Prop :=
  ∀ ident, match types ident with
    | none => locals ident = none
    | some ty => ty.isStorable = true ∧ ∃ index, locals ident = some ⟨.slot index ty, ty⟩

/-- The checker knows of the surroundings of an expression what matters for it. -/
structure Env.Agrees (env : Env) (k : Checker) (types : Bindings Ty) : Prop where
  functions : ∀ ident, (env.callee? ident).map (fun s ↦ (s.params, s.ret)) =
    (k.functions.find? (·.ident = ident)).map fun f ↦ (f.params, f.ret)
  constants : ∀ ident, (env.globals ident).isSome ↔ ident ∈ k.constants
  numeric : ∀ ident b, env.globals ident = some b → ∃ x, b.value = .number x
  locals : Typed env.locals types

namespace Lowering

variable {env : Env} {k : Checker} {types : Bindings Ty}

/-- What the two know of the value of an expression. -/
abbrev ValueAgrees : Except LoweringError Ty → Except LoweringError Value × Tape → Prop :=
  BlockCompiler.Agrees fun ty v _ ↦ v.Fits ty

theorem arith_ok (op : Arith) (lhs rhs : Value) (t : Tape) :
    ∃ v t', arith op lhs rhs t = (.ok v, t') ∧ v.Fits .double := by
  unfold arith
  split
  · exact ⟨_, _, rfl, rfl, rfl⟩
  · exact ⟨_, _, rfl, rfl, rfl⟩

theorem promote_ok (v : Value) (t : Tape) :
    ∃ v' t', promote v t = (.ok v', t') ∧ v'.Fits .double := by
  unfold promote
  split
  · exact ⟨_, _, rfl, rfl, rfl⟩
  · exact ⟨_, _, rfl, rfl, rfl⟩

theorem compare_ok (relation : Comparison) (lhs rhs : Value) (t : Tape) :
    ∃ v t', compare relation lhs rhs t = (.ok v, t') := by
  unfold compare
  split
  · exact ⟨_, _, rfl⟩
  · exact ⟨_, _, rfl⟩

theorem operate_ok (op : Operator) (lhs rhs : Value) (t : Tape) :
    ∃ v t', operate op lhs rhs t = (.ok v, t') ∧ v.Fits .double := by
  cases op with
  | add | sub | mul => exact arith_ok _ lhs rhs t
  | less | greater | equal | notEqual =>
    obtain ⟨v, t₁, hcompare⟩ := compare_ok _ lhs rhs t
    obtain ⟨v', t₂, hpromote, hfits⟩ := promote_ok v t₁
    exact ⟨v', t₂, bind_eq_ok_iff.mpr ⟨v, t₁, hcompare, hpromote⟩, hfits⟩

theorem combine_agrees (op : Operator) {lhs rhs : Value} {l r : Ty} (hl : lhs.Fits l)
    (hr : rhs.Fits r) (t : Tape) :
    ValueAgrees (do
      Checker.ensure (l = r) .operandMismatch
      Checker.ensure (l = .double) (.textOperand op)
      pure .double) (combine op lhs rhs t) := by
  unfold combine
  simp only [hl.isDouble_iff, hr.isDouble_iff, hl.ty_eq, hr.ty_eq]
  by_cases hboth : l = .double ∧ r = .double
  · obtain ⟨v, t', hok, hfits⟩ := operate_ok op lhs rhs t
    rw [if_pos hboth, hok, hboth.1, hboth.2]
    exact hfits
  · rw [if_neg hboth]
    by_cases heq : l = r
    · subst heq
      have hne : l ≠ .double := fun h ↦ hboth ⟨h, h⟩
      -- Of the types that a value may have, only one is left.
      have hstring : l = .string := by
        cases l with
        | double => exact absurd rfl hne
        | string => rfl
        | void | invalid => exact absurd hl.storable (by simp [Ty.isStorable])
      subst hstring
      exact rfl
    · rw [if_pos heq, Checker.ensure, if_neg heq]
      exact rfl

theorem readName_agrees (h : env.Agrees k types) (ident : String) (t : Tape) :
    ValueAgrees (Checker.expr k types (.name ident)) (readName env ident t) := by
  have hlocal := h.locals ident
  rw [Checker.expr, readName]
  cases htype : types ident with
  | some ty =>
    rw [htype] at hlocal
    obtain ⟨hstorable, index, hslot⟩ := hlocal
    rw [hslot]
    simp only [bind_apply, address_apply, Value.kind, ↓reduceIte, require_apply, hstorable]
    exact ⟨hstorable, rfl⟩
  | none =>
    rw [htype] at hlocal
    rw [hlocal]
    have hconstant := h.constants ident
    cases hglobal : env.globals ident with
    | none =>
      have hnot : ident ∉ k.constants := by simpa [hglobal] using hconstant
      simp only [Checker.ensure, if_neg hnot]
      exact rfl
    | some b =>
      have hmem : ident ∈ k.constants := by simpa [hglobal] using hconstant
      obtain ⟨x, hx⟩ := h.numeric ident b hglobal
      simp only [Checker.ensure, if_pos hmem]
      exact ⟨rfl, by rw [hx]; rfl⟩

theorem rewinding_agrees {α β : Type} {R : α → β → Tape → Prop} {r : Except LoweringError α}
    {m : Lowering Tape β} {t : Tape} (h : Agrees R r (m t)) : Agrees R r (rewinding m t) := by
  rw [rewinding]
  generalize m t = o at h ⊢
  rcases o with ⟨e | b, t'⟩
  · rcases r with e' | a
    · exact h
    · exact h.elim
  · exact h

/-- A call has a value if the function returns one. -/
def ResultFits (ret : Ty) : Option Value → Prop
  | some v => v.Fits ret
  | none => ret.isStorable = false

theorem callWith_agrees {α β : Type} {R : α → β → Tape → Prop} (h : env.Agrees k types)
    {ident : String} {es : List Expr}
    (hargs : ∀ tys t, Agrees (fun _ _ _ ↦ True) (Checker.arguments k types ident es tys)
      (arguments env ident es tys t))
    {f : Declared → Except LoweringError α} {g : Option Value → Lowering Tape β}
    (hfg : ∀ declared o t, ResultFits declared.ret o → Agrees R (f declared) (g o t)) (t : Tape) :
    Agrees R
      (do
        let declared ← k.callee ident es.length
        Checker.arguments k types ident es declared.params
        f declared)
      ((call env ident es >>= g) t) := by
  have hfunction := h.functions ident
  unfold call callWith Checker.callee
  cases hcallee : env.callee? ident with
  | none =>
    rw [hcallee] at hfunction
    rw [Option.map_eq_none_iff.mp hfunction.symm]
    exact rfl
  | some callee =>
    rw [hcallee] at hfunction
    obtain ⟨declared, hdeclared, hsame⟩ := Option.map_eq_some_iff.mp hfunction.symm
    obtain ⟨hparams, hret⟩ := Prod.mk.inj hsame
    rw [hdeclared]
    simp only [bind_assoc, pure_bind]
    refine Agrees.require (by rw [hparams]) fun _ ↦ ?_
    rw [← hparams]
    refine (rewinding_agrees (hargs declared.params t)).bind fun _ values t₁ _ _ ↦
      hfg declared _ _ ?_
    rw [← hret]
    split
    · next hstorable => exact ⟨hstorable, rfl⟩
    · next hstorable => exact Bool.eq_false_iff.mpr hstorable

mutual

theorem expr_agrees (h : env.Agrees k types) :
    ∀ e t, ValueAgrees (Checker.expr k types e) (expr env e t)
  | .number _, _ => ⟨rfl, rfl⟩
  | .text _, _ => ⟨rfl, rfl⟩
  | .name ident, t => readName_agrees h ident t
  | .call ident args, t => by
    rw [expr, Checker.expr]
    refine callWith_agrees h (arguments_agrees h ident args) (fun declared o t' ho ↦ ?_) t
    cases o with
    | none =>
      have hvoid : ¬declared.ret.isStorable = true := by rw [show _ = false from ho]; simp
      rw [Checker.ensure, if_neg hvoid]
      exact rfl
    | some v =>
      rw [Checker.ensure, if_pos ho.storable]
      exact ho
  | .binary op lhs rhs, t => by
    rw [expr, Checker.expr]
    exact rewinding_agrees ((expr_agrees h lhs t).bind fun l lv t₁ _ hl ↦
      (expr_agrees h rhs t₁).bind fun r rv t₂ _ hr ↦ combine_agrees op hl hr t₂)
termination_by structural e => e

theorem arguments_agrees (h : env.Agrees k types) (ident : String) :
    ∀ es tys t, Agrees (fun _ _ _ ↦ True) (Checker.arguments k types ident es tys)
      (arguments env ident es tys t)
  | [], _, _ => by
    rw [arguments, Checker.arguments]
    · trivial
    · simp
    · simp
  | _ :: _, [], _ => by
    rw [arguments, Checker.arguments]
    · trivial
    · simp
    · simp
  | e :: es, ty :: tys, t => by
    rw [arguments, Checker.arguments]
    refine (expr_agrees h e t).bind fun found v t₁ _ hv ↦ ?_
    refine Agrees.require (by rw [hv.ty_eq]) fun _ ↦ ?_
    have hrest := arguments_agrees h ident es tys t₁
    rw [← bind_pure (Checker.arguments k types ident es tys)]
    exact hrest.bind fun _ _ _ _ _ ↦ trivial
termination_by structural es => es

end

theorem call_agrees (h : env.Agrees k types) (ident : String) (args : List Expr) (t : Tape) :
    Agrees (fun _ _ _ ↦ True) (k.call types ident args) (call env ident args t) := by
  have hcall := callWith_agrees (R := fun (_ : Unit) _ _ ↦ True) h (arguments_agrees h ident args)
    (f := fun _ ↦ pure ()) (g := pure) (fun _ _ _ _ ↦ trivial) t
  simp only [bind_pure_unit, bind_pure] at hcall
  exact hcall

theorem condition_agrees (h : env.Agrees k types) (cond : Expr) (t : Tape) :
    Agrees (fun _ _ _ ↦ True) (Checker.condition k types cond) (condition env cond t) := by
  rw [condition, Checker.condition]
  refine (expr_agrees h cond t).bind fun ty v t₁ _ hv ↦ ?_
  rw [hv.ty_eq, ← bind_pure_unit (x := Checker.ensure _ _)]
  refine Agrees.require (hv.isDouble_iff).symm fun _ ↦ ?_
  unfold test
  split <;> trivial

end Lowering

/-! ## Statements -/

/-- The checker knows of a function under construction what matters for its statements. -/
structure Frame.Known (outer : Outer) (k : Checker) (head : Prototype) (types : Bindings Ty)
    (fr : Frame) : Prop where
  env : (fr.env outer).Agrees k types
  symbol : fr.function.signature.symbol = head.ident
  ret : Lowering.declaredRet outer fr = some head.ret

/-- Lowering stands at the end of a block whose flow the checker knows. -/
structure Frame.At (outer : Outer) (k : Checker) (head : Prototype) (block : Nat)
    (types : Bindings Ty) (flow : Flow) (fr : Frame) : Prop where
  stands : fr.Stands block flow
  known : fr.Known outer k head types

namespace Frame

variable {outer : Outer} {k : Checker} {head : Prototype} {types types' : Bindings Ty}
  {flow flow' : Flow} {block next : Nat} {fr fr' : Frame}

theorem Known.of_eq (h : fr.Known outer k head types) (hlocals : fr'.locals = fr.locals)
    (hsignature : fr'.function.signature = fr.function.signature) :
    fr'.Known outer k head types where
  env := by
    change Env.Agrees ⟨outer.signatures, outer.globals, fr'.locals⟩ k types
    rw [hlocals]
    exact h.env
  symbol := by rw [hsignature, h.symbol]
  ret := by rw [Lowering.declaredRet, hsignature]; exact h.ret

theorem Known.close {target : Nat} (h : fr.Known outer k head types) :
    (fr.close block target).Known outer k head types := by
  unfold Frame.close
  split
  · exact h
  · split <;> exact h.of_eq rfl rfl

theorem At.of_grows (h : fr.At outer k head block types flow) (hgrows : fr.Grows block fr' next)
    (hknown : fr'.Known outer k head types') (hflow : fr'.flow next = flow') :
    fr'.At outer k head next types' flow' :=
  ⟨h.stands.of_grows hgrows hflow, hknown⟩

theorem At.withTape {t : Tape} (h : fr.At outer k head block types flow)
    (hstraight : Straight (fr.code block)) (hextends : (fr.tape block).Extends t) :
    (fr.withTape block t).At outer k head block types flow ∧
      Straight ((fr.withTape block t).code block) := by
  obtain ⟨hstands, hplain⟩ := h.stands.withTape hstraight hextends
  exact ⟨⟨hstands, h.known.of_eq rfl rfl⟩, hplain⟩

end Frame

namespace Lowering

variable {outer : Outer} {k : Checker} {head : Prototype} {types : Bindings Ty} {flow : Flow}
  {block : Nat} {fr : Frame}

theorem requireOpen_agrees {α β : Type} {R : α → β → Frame → Prop} {r : Except LoweringError α}
    {m : Lowering Frame β} (h : fr.At outer k head block types flow)
    (hrest : Straight (fr.code block) → fr.function.isTerminated block = false →
      Agrees R r (m fr)) :
    Agrees R (do Checker.ensure (flow ≠ .ended) (.unreachableStmt head.ident); r)
      ((do requireOpen block; m) fr) := by
  rw [requireOpen, bind_assoc, bind_state_apply, h.known.symbol]
  refine Agrees.require (by rw [← h.stands.flow, Frame.flow_ne_ended_iff]) fun hne ↦ ?_
  rw [← h.stands.flow, Frame.flow_ne_ended_iff] at hne
  exact hrest (Function.straight_of_tidy h.stands.tidy hne) hne

theorem within_agrees {α β : Type} {R : α → β → Tape → Prop} {r : Except LoweringError α}
    {m : Env → Lowering Tape β} (h : Agrees R r (m (fr.env outer) (fr.tape block))) :
    Agrees (fun a b fr' ↦ ∃ t, m (fr.env outer) (fr.tape block) = (.ok b, t) ∧
      fr' = fr.withTape block t ∧ R a b t) r (within outer block m fr) := by
  rw [within_apply, onBlock_apply]
  generalize m (fr.env outer) (fr.tape block) = o at h ⊢
  rcases r with e | a <;> rcases o with ⟨e' | b, t⟩
  · exact h
  · exact h.elim
  · exact h.elim
  · exact ⟨t, rfl, rfl, h⟩

/-- A statement that starts with an expression: the two agree if they do about the expression, and
about what comes behind it. -/
theorem open_within_agrees {α α' β β' : Type} {R : α → β → Tape → Prop}
    {R' : α' → β' → Frame → Prop} {r : Except LoweringError α} {m : Env → Lowering Tape β}
    {f : α → Except LoweringError α'} {g : β → Lowering Frame β'}
    (h : fr.At outer k head block types flow) (hmoves : ∀ env, Moves Tape.Extends (m env))
    (hm : Agrees R r (m (fr.env outer) (fr.tape block)))
    (hrest : ∀ a b t, (fr.withTape block t).At outer k head block types flow →
      Straight ((fr.withTape block t).code block) → R a b t →
      Agrees R' (f a) (g b (fr.withTape block t))) :
    Agrees R'
      (do
        Checker.ensure (flow ≠ .ended) (.unreachableStmt head.ident)
        let a ← r
        f a)
      ((do
        requireOpen block
        let b ← within outer block m
        g b) fr) := by
  refine requireOpen_agrees h fun hstraight _ ↦
    (within_agrees hm).bind fun a b _ _ ⟨t, hok, hfr, hR⟩ ↦ ?_
  subst hfr
  obtain ⟨hat, hplain⟩ := h.withTape hstraight ((hmoves _).of_eq hok)
  exact hrest a b t hat hplain hR

theorem Typed.bind {locals : Bindings Binding} {ident : String} {index : Nat} {ty : Ty}
    (h : Typed locals types) (hty : ty.isStorable = true) :
    Typed (locals.bind ident ⟨.slot index ty, ty⟩) (types.bind ident ty) := by
  intro x
  by_cases hx : x = ident
  · simp only [Bindings.bind, if_pos hx]
    exact ⟨hty, index, rfl⟩
  · simp only [Bindings.bind, if_neg hx]
    exact h x

theorem At.of_assigns {fr' : Frame} {ident : String} {v : Value} {types' : Bindings Ty}
    (h : fr.At outer k head block types flow) (hstraight : Straight (fr.code block))
    (hassigns : Assigns outer block ident v fr fr') (hknown : fr'.Known outer k head types') :
    fr'.At outer k head block types' flow ∧ Straight (fr'.code block) := by
  obtain ⟨hstands, hplain⟩ := h.stands.of_assigns hstraight hassigns
  exact ⟨⟨hstands, hknown⟩, hplain⟩

section

variable {ident : String} {v : Value} {ty : Ty} (h : fr.At outer k head block types flow)
  (hstraight : Straight (fr.code block)) (hv : v.Fits ty)

include h hstraight hv

theorem assign_known_agrees {known : Ty} (htype : types ident = some known) :
    Agrees (fun types' _ fr' ↦ fr'.At outer k head block types' flow ∧ Straight (fr'.code block))
      (do Checker.ensure (known = ty) (.storeMismatch ident); pure types)
      (assign outer block ident v fr) := by
  have hlocal := h.known.env.locals ident
  rw [htype] at hlocal
  obtain ⟨-, index, hslot⟩ := hlocal
  have hslot : fr.locals ident = some ⟨.slot index known, known⟩ := hslot
  rw [assign_apply_of_some hslot, store_apply, hv.ty_eq]
  simp only [Value.kind, ↓reduceIte]
  by_cases heq : known = ty
  · subst heq
    simp only [Checker.ensure, ↓reduceIte]
    exact At.of_assigns h hstraight (.known hslot rfl hv.ty_eq.symm) (h.known.of_eq rfl rfl)
  · simp only [Checker.ensure, if_neg heq]
    exact rfl

theorem assign_new_agrees (htype : types ident = none) :
    Agrees (fun types' _ fr' ↦ fr'.At outer k head block types' flow ∧ Straight (fr'.code block))
      (do Checker.ensure (ident ∉ k.constants) (.constantWritten ident); pure (types.bind ident ty))
      (assign outer block ident v fr) := by
  have hlocal := h.known.env.locals ident
  rw [htype] at hlocal
  have hunbound : fr.locals ident = none := hlocal
  -- The slot is set up in the entry, which is there since lowering stands in a block.
  have hentry : fr.function.blocks ≠ [] := by
    intro hnil
    have hlt := h.stands.lt
    rw [Frame.count, hnil] at hlt
    exact Nat.not_lt_zero _ hlt
  have hconstant : (outer.globals ident).isSome ↔ ident ∈ k.constants :=
    h.known.env.constants ident
  rw [assign_apply_of_none hunbound]
  by_cases hmem : ident ∈ k.constants
  · obtain ⟨b, hb⟩ := Option.isSome_iff_exists.mp (hconstant.mpr hmem)
    simp only [Checker.ensure, if_neg (not_not_intro hmem), hb, Option.isNone_some,
      Bool.false_eq_true, ↓reduceIte]
    exact rfl
  · have hfree : outer.globals ident = none := by simpa using mt hconstant.mp hmem
    simp only [Checker.ensure, if_pos hmem, hfree, Option.isNone_none, ↓reduceIte, hv.ty_eq,
      hv.storable, if_pos hentry, store_apply, Value.kind]
    have hassigns : Assigns outer block ident v fr _ :=
      .first hunbound hfree (by rw [hv.ty_eq]; exact hv.storable) hentry
    rw [hv.ty_eq] at hassigns
    refine At.of_assigns h hstraight hassigns ⟨⟨h.known.env.functions, h.known.env.constants,
      h.known.env.numeric, ?_⟩, h.known.symbol, h.known.ret⟩
    exact Typed.bind h.known.env.locals hv.storable

theorem assign_agrees :
    Agrees (fun types' _ fr' ↦ fr'.At outer k head block types' flow ∧ Straight (fr'.code block))
      (k.assign types ident ty) (assign outer block ident v fr) := by
  unfold Checker.assign
  split
  · next known htype => exact assign_known_agrees h hstraight hv htype
  · next htype => exact assign_new_agrees h hstraight hv htype

end

theorem returnValue_agrees {v : Value} {ty : Ty} (h : fr.At outer k head block types flow)
    (hstraight : Straight (fr.code block)) (hv : v.Fits ty) :
    Agrees (fun p next fr' ↦ fr'.At outer k head next p.1 p.2)
      (do
        Checker.ensure (ty = head.ret) (.returnMismatch head.ident)
        pure (types, .ended))
      ((do
        returnValue outer block v
        pure block) fr) := by
  rw [returnValue, bind_assoc, bind_state_apply, bind_assoc, h.known.symbol]
  refine Agrees.require ?_ fun _ ↦ ?_
  · have hret : (outer.signatures.find? (·.ident = head.ident)).map Signature.ret =
        some head.ret := h.known.symbol ▸ h.known.ret
    rw [hret, hv.ty_eq, Option.some.injEq, eq_comm]
  · have hgrows := Frame.grows_extend (i := .ret (some v)) h.stands.lt hstraight rfl
    have hsealed : Sealed ((fr.extend block [.ret (some v)]).code block) := by
      rw [Frame.code_extend h.stands.lt]
      exact hstraight.append_terminator rfl
    have hflow : (fr.extend block [.ret (some v)]).flow block = .ended := by
      rw [Frame.flow, if_pos (Function.isTerminated_of_sealed hsealed)]
    exact h.of_grows hgrows (h.known.of_eq rfl rfl) hflow

/-- The body of a statement is lowered from the end of a block on and is closed, and the two agree
if they do about the body and about what comes behind it. -/
theorem nested_agrees {α β : Type} {R : α → β → Frame → Prop} {ss : List Stmt} {start target : Nat}
    {r : Except LoweringError (Bindings Ty × Flow)}
    {f : Bindings Ty × Flow → Except LoweringError α} {g : Lowering Frame β}
    (h : fr.At outer k head start types flow)
    (hm : Agrees (fun p next fr' ↦ fr'.At outer k head next p.1 p.2) r (stmts outer ss start fr))
    (hrest : ∀ p next fr', fr.Grows start fr' next → fr'.At outer k head next p.1 p.2 →
      Agrees R (f p) (g (fr'.close next target))) :
    Agrees R (r >>= f)
      ((do
        let bodyEnd ← stmts outer ss start
        close bodyEnd target
        g) fr) := by
  refine hm.bind fun p next fr' hrun hp ↦ ?_
  have hgrows := grows_of_lowers (lowers_of_stmts ss hrun) h.stands.lt h.stands.tidy
  rw [bind_apply, close_apply]
  exact hrest p next fr' hgrows hp

/-- The blocks of a statement are created at once. -/
theorem updating_bind_apply {α β : Type} (f : Frame → α × Frame) (m : α → Lowering Frame β) :
    (updating f >>= m) fr = m (f fr).1 (f fr).2 := rfl

mutual

theorem stmt_agrees : ∀ (s : Stmt) {block : Nat} {types : Bindings Ty} {flow : Flow} {fr : Frame},
    fr.At outer k head block types flow →
    Agrees (fun p next fr' ↦ fr'.At outer k head next p.1 p.2)
      (Checker.stmt k head s types flow) (stmt outer s block fr)
  | .assign ident value, block, types, flow, fr, h => by
    rw [stmt, Checker.stmt]
    exact open_within_agrees h (fun env ↦ expr_moves env value) (expr_agrees h.known.env value _)
      fun ty v t hat hplain hv ↦
        (assign_agrees hat hplain hv).bind fun types' _ fr' _ hassign ↦ hassign.1
  | .ret value, block, types, flow, fr, h => by
    rw [stmt, Checker.stmt]
    exact open_within_agrees h (fun env ↦ expr_moves env value) (expr_agrees h.known.env value _)
      fun ty v t hat hplain hv ↦ returnValue_agrees hat hplain hv
  | .ifThen cond body, block, types, flow, fr, h => by
    rw [stmt, Checker.stmt]
    refine open_within_agrees h (fun env ↦ condition_moves env cond)
      (condition_agrees h.known.env cond _) fun _ c t hat hplain _ ↦ ?_
    rw [fork_bind, updating_bind_apply]
    have hbody : ((fr.withTape block t).fork block c).At outer k head _ types .live :=
      ⟨(hat.stands.fork hplain rfl).toStands, hat.known.of_eq rfl rfl⟩
    refine nested_agrees hbody (stmts_agrees body hbody) fun p m fr₁ hgrows hp ↦ ?_
    exact ⟨(hat.stands.behindFork hplain rfl hgrows).toStands, hp.known.close⟩
  | .ifElse cond body otherwise, block, types, flow, fr, h => by
    rw [stmt, Checker.stmt]
    refine open_within_agrees h (fun env ↦ condition_moves env cond)
      (condition_agrees h.known.env cond _) fun _ c t hat hplain _ ↦ ?_
    rw [forkElse_bind, updating_bind_apply]
    have hbody : ((fr.withTape block t).forkElse block c).At outer k head _ types .live :=
      ⟨(hat.stands.forkElse hplain rfl).toStands, hat.known.of_eq rfl rfl⟩
    refine nested_agrees hbody (stmts_agrees body hbody) fun p m fr₁ hgrows hp ↦ ?_
    have hotherwise : (fr₁.close m _).At outer k head _ p.1 .live :=
      ⟨(hat.stands.otherwise hplain rfl hgrows).toStands, hp.known.close⟩
    refine nested_agrees hotherwise (stmts_agrees otherwise hotherwise) fun q m' fr₂ hgrows' hq ↦ ?_
    have hafter := (hat.stands.behindForkElse hplain rfl hgrows hgrows').toStands
    rw [hp.stands.flow, hq.stands.flow] at hafter
    exact ⟨hafter, hq.known.close⟩
  | .loop cond body, block, types, flow, fr, h => by
    rw [stmt, Checker.stmt]
    refine requireOpen_agrees h fun hstraight _ ↦ ?_
    rw [enterLoop_bind, updating_bind_apply]
    have henv : ((fr.enterLoop block).env outer).Agrees k types := h.known.env
    have hcondition := condition_agrees henv cond ((fr.enterLoop block).tape fr.count)
    refine (within_agrees hcondition).bind fun _ c _ _ ⟨t, hcond, hfr, _⟩ ↦ ?_
    subst hfr
    have hextends := (condition_moves _ _).of_eq hcond
    rw [bind_apply, onBlock_emitPlain]
    have hbody : (((fr.enterLoop block).withTape fr.count t).turn fr.count c).At outer k head
        (fr.count + 1) types .live :=
      ⟨(h.stands.turn hstraight hextends).toStands, h.known.of_eq rfl rfl⟩
    refine nested_agrees hbody (stmts_agrees body hbody) fun p m fr₁ hgrows hp ↦ ?_
    exact ⟨(h.stands.behindLoop hstraight hextends hgrows).toStands, hp.known.close⟩
  | .eval value, block, types, flow, fr, h => by
    rw [stmt.eq_def, Checker.stmt.eq_def]
    cases value with
    | call ident args =>
      exact open_within_agrees h (fun env ↦ call_moves env ident args)
        (call_agrees h.known.env ident args _) fun _ _ _ hat _ _ ↦ hat
    | number | text | name | binary =>
      exact open_within_agrees h (fun env ↦ expr_moves env _) (expr_agrees h.known.env _ _)
        fun _ _ _ hat _ _ ↦ hat
termination_by structural s => s

theorem stmts_agrees : ∀ (ss : List Stmt) {block : Nat} {types : Bindings Ty} {flow : Flow}
    {fr : Frame}, fr.At outer k head block types flow →
    Agrees (fun p next fr' ↦ fr'.At outer k head next p.1 p.2)
      (Checker.stmts k head ss types flow) (stmts outer ss block fr)
  | [], _, _, _, _, h => h
  | s :: rest, block, types, flow, fr, h => by
    rw [stmts, Checker.stmts]
    exact (stmt_agrees s h).bind fun p next fr' _ hp ↦ stmts_agrees rest hp
termination_by structural ss => ss

end

end Lowering

end BlockCompiler
