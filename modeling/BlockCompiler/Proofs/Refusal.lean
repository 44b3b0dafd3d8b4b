import BlockCompiler.Proofs.Agreement
import BlockCompiler.Proofs.Locals
import BlockCompiler.Proofs.Typing

/-!
# What programs are refused for

Some causes of failure stand for rules that lowering itself could break, not the program: a slot
that is no address, a value of no type, a function without entry. Each of them is excluded by what
holds of every function under construction: locals have slots (`Frame.Housed`), and values are
numbers or strings (`Frame.Marked`). What is left are the causes that a program can have
(`Lowering.isOf_of_error`), sorted by the kind of declaration.
-/

namespace BlockCompiler

namespace LoweringError

/-- The cause is a rule that lowering takes care of: no program breaks it. -/
def isDefensive : LoweringError → Bool
  | noStorageType _ | noEntryBlock | notWritable _ | notStorable _ _ | operandUnknown
  | notConstant _ => true
  | _ => false

/-- The causes for which a head is refused. -/
def isOfHead : LoweringError → Bool
  | duplicateParam _ _ | conflictingDeclaration _ => true
  | _ => false

/-- The causes for which a global constant is refused. -/
def isOfConstant : LoweringError → Bool
  | unknownVariable _ | textOutside | callOutside | operatorOutside => true
  | _ => false

/-- The causes for which a body is refused. -/
def isOfBody : LoweringError → Bool
  | unknownVariable _ | unknownFunction _ | wrongArity _ | constantWritten _ | missingReturn _
  | returnMismatch _ | unreachableStmt _ | storeMismatch _ | conditionMismatch _
  | argumentMismatch _ | voidUsed _ | operandMismatch | textOperand _ => true
  | _ => false

end LoweringError

/-- The causes for which a declaration is refused. -/
def LoweringError.isOf (e : LoweringError) : Decl → Bool
  | .function head _ => e.isOfHead || e.isOfBody || e = .alreadyDefined head.ident
  | .external _ => e.isOfHead
  | .constant _ _ => e.isOfConstant

/-- A local is bound to a slot of a type that takes up storage. -/
def Env.Stored (env : Env) : Prop :=
  ∀ ident b, env.locals ident = some b →
    b.ty.isStorable ∧ ∃ index ty, b.value = .slot index ty

theorem Frame.Housed.stored {outer : Outer} {fr : Frame} (h : fr.Housed outer) :
    (fr.env outer).Stored := by
  intro ident b hb
  obtain ⟨hstorable, index, hvalue, -⟩ := h.locals ident b hb
  exact ⟨hstorable, index, b.ty, hvalue⟩

namespace Lowering

/-! ## Steps that fail for known causes -/

section

variable {σ α β : Type} {P : σ → Prop} {E : LoweringError → Prop} {m : Lowering σ α}

/-- Started where `P` holds, the step fails for causes that satisfy `E` only. -/
def FailsFor (P : σ → Prop) (m : Lowering σ α) (E : LoweringError → Prop) : Prop :=
  ∀ s, P s → ∀ e s', m s = (.error e, s') → E e

theorem failsFor_of_ok (h : ∀ s, ∃ a s', m s = (.ok a, s')) : FailsFor P m E := by
  intro s _ e s' he
  obtain ⟨a, s₁, hok⟩ := h s
  exact absurd (Prod.mk.inj (hok.symm.trans he)).1 (by simp)

theorem failsFor_pure (a : α) : FailsFor P (pure a : Lowering σ α) E :=
  failsFor_of_ok fun s ↦ ⟨a, s, rfl⟩

theorem failsFor_fail {e : LoweringError} (h : E e) : FailsFor P (fail e : Lowering σ α) E := by
  intro s _ e' s' he
  obtain ⟨⟨⟩, -⟩ := Prod.mk.inj he
  exact h

namespace FailsFor

theorem bind {f : α → Lowering σ β} {Q : α → σ → Prop} {F : σ → Prop} (hm : FailsFor P m E)
    (hpost : Triple P m Q F) (hf : ∀ a, FailsFor (Q a) (f a) E) : FailsFor P (m >>= f) E := by
  intro s hs e s' he
  rcases bind_eq_error_iff.mp he with he | ⟨a, s₁, hok, he⟩
  · exact hm s hs e s' he
  · exact hf a s₁ (hpost.of_ok hs hok) e s' he

/-- What is known of the value of a step holds of it besides what the step keeps. -/
theorem bind_of_value {f : α → Lowering σ β} {V : α → Prop} (hm : FailsFor P m E)
    (hpost : Triple P m (fun a s ↦ V a ∧ P s) P) (hf : ∀ a, V a → FailsFor P (f a) E) :
    FailsFor P (m >>= f) E :=
  hm.bind hpost fun a s hs ↦ hf a hs.1 s hs.2

theorem bind_of_keeps {f : α → Lowering σ β} (hm : FailsFor P m E) (hkeeps : Moves (Keeps P) m)
    (hf : ∀ a, FailsFor P (f a) E) : FailsFor P (m >>= f) E :=
  hm.bind (moves_keeps_iff.mp hkeeps) hf

theorem bind_require {cond : Prop} [Decidable cond] {e : LoweringError}
    {f : Unit → Lowering σ α} (he : ¬cond → E e) (hf : cond → FailsFor P (f ()) E) :
    FailsFor P (require cond e >>= f) E := by
  intro s hs e' s' he'
  rw [bind_require_apply] at he'
  split at he'
  · next hcond => exact hf hcond s hs e' s' he'
  · next hcond =>
    obtain ⟨⟨⟩, -⟩ := Prod.mk.inj he'
    exact he hcond

theorem rewinding {m : Lowering Tape α} {P : Tape → Prop} (h : FailsFor P m E) :
    FailsFor P (rewinding m) E := by
  intro t ht e t' he
  rcases hm : m t with ⟨e' | a, t₁⟩
  · rw [Lowering.rewinding, hm] at he
    obtain ⟨⟨⟩, -⟩ := Prod.mk.inj he
    exact h t ht _ t₁ hm
  · rw [rewinding_eq_ok_iff.mpr hm] at he
    exact absurd (Prod.mk.inj he).1 (by simp)

end FailsFor

end

/-! ## Expressions -/

section

variable {env : Env} {ret : Ty}

/-- The step fails for causes of a body only. -/
abbrev BodyFails {α : Type} (env : Env) (ret : Ty) (m : Lowering Tape α) : Prop :=
  FailsFor (Tape.Marked env.signatures ret) m fun e ↦ e.isOfBody

/-- A value that can be stored is a number or a string. -/
theorem eq_string_of_isDatum {v : Value} (h : v.IsDatum) (hkind : v.kind ≠ .double) :
    v.ty = .string := by
  obtain ⟨ty, -, -, hv⟩ := h
  cases ty with
  | string => rw [Value.ty, hv]; rfl
  | double | void | invalid => exact absurd hv hkind

theorem combine_fails (op : Operator) {lhs rhs : Value} (hl : lhs.IsDatum) (hr : rhs.IsDatum) :
    BodyFails env ret (combine op lhs rhs) := by
  unfold combine
  split
  · exact failsFor_of_ok fun t ↦ by
      obtain ⟨v, t', hok, -⟩ := operate_ok op lhs rhs t
      exact ⟨v, t', hok⟩
  · next hboth =>
    split
    · exact failsFor_fail rfl
    · next hty =>
      split
      · exact failsFor_fail rfl
      · next hstring =>
        -- Both would have to be numbers.
        have hlhs : lhs.kind = .double := by
          by_contra hkind
          exact hstring (eq_string_of_isDatum hl hkind)
        have hrhs : rhs.kind = .double := by
          by_contra hkind
          exact hstring ((not_not.mp hty).trans (eq_string_of_isDatum hr hkind))
        exact absurd ⟨hlhs, hrhs⟩ hboth

theorem readName_fails (hstored : env.Stored) (ident : String) :
    BodyFails env ret (readName env ident) := by
  unfold readName
  split
  · next b hb =>
    obtain ⟨hstorable, index, ty, hslot⟩ := hstored ident b hb
    intro t _ e t' he
    rw [bind_apply, address_apply, hslot] at he
    simp only [Value.kind, ↓reduceIte, bind_require_apply, hstorable] at he
    exact absurd (Prod.mk.inj he).1 (by simp)
  · split
    · exact failsFor_pure _
    · exact failsFor_fail rfl

theorem callWith_fails (ident : String) (count : Nat) {args : List Ty → Lowering Tape (List Value)}
    (h : ∀ tys, tys.length = count → BodyFails env ret (args tys)) :
    BodyFails env ret (callWith env ident count args) := by
  unfold callWith
  split
  · exact failsFor_fail rfl
  · refine .bind_require (fun _ ↦ rfl) fun hlength t ht e t' he ↦ ?_
    rcases bind_eq_error_iff.mp he with he | ⟨values, t₁, -, he⟩
    · exact (h _ hlength).rewinding t ht e t' he
    · exact absurd (Prod.mk.inj he).1 (by simp)

mutual

theorem expr_fails (henv : env.Marked) (hstored : env.Stored) :
    ∀ e, BodyFails env ret (expr env e)
  | .number x => failsFor_pure _
  | .text contents => failsFor_of_ok fun t ↦ ⟨_, _, rfl⟩
  | .name ident => readName_fails hstored ident
  | .call ident args => by
    rw [expr]
    refine (callWith_fails ident args.length fun tys hlength ↦
      arguments_fails henv hstored ident args tys hlength).bind_of_value
        (call_marks henv ident args) fun result _ ↦ ?_
    cases result with
    | none => exact failsFor_fail rfl
    | some value => exact failsFor_pure _
  | .binary op lhs rhs => by
    rw [expr]
    exact ((expr_fails henv hstored lhs).bind_of_value (expr_marks henv lhs) fun l hl ↦
      (expr_fails henv hstored rhs).bind_of_value (expr_marks henv rhs) fun r hr ↦
      combine_fails op hl hr).rewinding
termination_by structural e => e

theorem arguments_fails (henv : env.Marked) (hstored : env.Stored) (ident : String) :
    ∀ es tys, tys.length = es.length → BodyFails env ret (arguments env ident es tys)
  | [], _, _ => by
    rw [arguments_nil]
    exact failsFor_pure _
  | _ :: _, [], hlength => absurd hlength (by simp)
  | e :: es, ty :: tys, hlength => by
    have hlength := Nat.succ.inj hlength
    rw [arguments]
    exact (expr_fails henv hstored e).bind_of_value (expr_marks henv e) fun value _ ↦
      .bind_require (fun _ ↦ rfl) fun _ ↦
        (arguments_fails henv hstored ident es tys hlength).bind_of_value
          (arguments_marks henv ident es tys hlength) fun values _ ↦ failsFor_pure _
termination_by structural es => es

end

theorem condition_fails (henv : env.Marked) (hstored : env.Stored) (cond : Expr) :
    BodyFails env ret (condition env cond) :=
  (expr_fails henv hstored cond).bind_of_value (expr_marks henv cond) fun v _ ↦
    .bind_require (fun _ ↦ rfl) fun _ ↦ failsFor_of_ok fun t ↦ by
      unfold test
      split
      · exact ⟨_, _, rfl⟩
      · exact ⟨_, _, rfl⟩

end

/-! ## Bodies -/

/-- What the single steps of a body fail for, started where `K` holds. -/
structure Refusals (outer : Outer) (K : Frame → Prop) (Datum : Value → Prop)
    (E : LoweringError → Prop) : Prop where
  expr : ∀ block e, FailsFor K (within outer block fun env ↦ expr env e) E
  condition : ∀ block e, FailsFor K (within outer block fun env ↦ condition env e) E
  call : ∀ block ident args, FailsFor K (within outer block fun env ↦ call env ident args) E
  assign : ∀ block ident v, Datum v → FailsFor K (assign outer block ident v) E
  returnValue : ∀ block v, Datum v → FailsFor K (returnValue outer block v) E
  unreachableStmt : ∀ symbol, E (.unreachableStmt symbol)
  missingReturn : ∀ ident, E (.missingReturn ident)

namespace Refusals

variable {outer : Outer} {K : Frame → Prop} {Datum Bit : Value → Prop} {E : LoweringError → Prop}

/-! ### Steps in front of others -/

section

variable {α : Type} {m : Lowering Frame α} {block : Nat}

theorem requireOpen_bind_fails (r : Refusals outer K Datum E) (hm : FailsFor K m E) :
    FailsFor K (do requireOpen block; m) E := by
  refine FailsFor.bind_of_keeps (fun fr _ e fr' he ↦ ?_) (Invariant.requireOpen_keeps block)
    fun _ ↦ hm
  rw [requireOpen, bind_state_apply, require_apply] at he
  split at he
  · exact absurd (Prod.mk.inj he).1 (by simp)
  · obtain ⟨⟨⟩, -⟩ := Prod.mk.inj he
    exact r.unreachableStmt _

theorem expr_bind_fails (r : Refusals outer K Datum E) (h : Invariant outer K Datum Bit) {e : Expr}
    {f : Value → Lowering Frame α} (hf : ∀ v, Datum v → FailsFor K (f v) E) :
    FailsFor K (within outer block (fun env ↦ Lowering.expr env e) >>= f) E :=
  (r.expr block e).bind_of_value (h.expr block e) hf

theorem condition_bind_fails (r : Refusals outer K Datum E) (h : Invariant outer K Datum Bit)
    {cond : Expr} {f : Value → Lowering Frame α} (hf : ∀ c, Bit c → FailsFor K (f c) E) :
    FailsFor K (within outer block (fun env ↦ Lowering.condition env cond) >>= f) E :=
  (r.condition block cond).bind_of_value (h.condition block cond) hf

theorem childBlock_bind_fails (h : Invariant outer K Datum Bit) {role : Role}
    {f : Nat → Lowering Frame α} (hf : ∀ new, FailsFor K (f new) E) :
    FailsFor K (childBlock block role >>= f) E :=
  (failsFor_of_ok fun fr ↦ ⟨_, _, childBlock_apply block role fr⟩).bind_of_keeps
    (h.childBlock_keeps block role) hf

theorem branch_bind_fails (h : Invariant outer K Datum Bit) {c : Value} (hc : Bit c) {x y : Nat}
    (hm : FailsFor K m E) : FailsFor K (do onBlock block (emitPlain (.branch c x y)); m) E :=
  (failsFor_of_ok fun fr ↦ ⟨_, _, onBlock_emitPlain block _ fr⟩).bind_of_keeps
    (h.branch_keeps block hc x y) fun _ ↦ hm

theorem jump_bind_fails (h : Invariant outer K Datum Bit) {target : Nat} (hm : FailsFor K m E) :
    FailsFor K (do onBlock block (emitPlain (.jump target)); m) E :=
  (failsFor_of_ok fun fr ↦ ⟨_, _, onBlock_emitPlain block _ fr⟩).bind_of_keeps
    (h.jump_keeps block target) fun _ ↦ hm

theorem close_bind_fails (h : Invariant outer K Datum Bit) {target : Nat} (hm : FailsFor K m E) :
    FailsFor K (do close block target; m) E :=
  (failsFor_of_ok fun fr ↦ ⟨_, _, close_apply block target fr⟩).bind_of_keeps
    (h.close_keeps block target) fun _ ↦ hm

end

/-! ### Statements -/

mutual

theorem stmt_fails (r : Refusals outer K Datum E) (h : Invariant outer K Datum Bit) :
    ∀ s block, FailsFor K (stmt outer s block) E
  | .assign ident value, block => by
    rw [stmt]
    exact r.requireOpen_bind_fails <| r.expr_bind_fails h fun v hv ↦
      (r.assign block ident v hv).bind_of_keeps (h.assign block ident v hv) fun _ ↦ failsFor_pure _
  | .ret value, block => by
    rw [stmt]
    exact r.requireOpen_bind_fails <| r.expr_bind_fails h fun v hv ↦
      (r.returnValue block v hv).bind_of_keeps (h.returnValue block v hv) fun _ ↦ failsFor_pure _
  | .ifThen cond body, block => by
    rw [stmt]
    exact r.requireOpen_bind_fails <| r.condition_bind_fails h fun c hc ↦
      childBlock_bind_fails h fun ifTrue ↦ childBlock_bind_fails h fun after ↦
      branch_bind_fails h hc <|
      (stmts_fails r h body ifTrue).bind_of_keeps (h.stmts_keeps body ifTrue) fun bodyEnd ↦
      close_bind_fails h <| failsFor_pure _
  | .ifElse cond body otherwise, block => by
    rw [stmt]
    exact r.requireOpen_bind_fails <| r.condition_bind_fails h fun c hc ↦
      childBlock_bind_fails h fun ifTrue ↦ childBlock_bind_fails h fun ifFalse ↦
      childBlock_bind_fails h fun after ↦ branch_bind_fails h hc <|
      (stmts_fails r h body ifTrue).bind_of_keeps (h.stmts_keeps body ifTrue) fun bodyEnd ↦
      close_bind_fails h <|
      (stmts_fails r h otherwise ifFalse).bind_of_keeps (h.stmts_keeps otherwise ifFalse)
        fun otherwiseEnd ↦ close_bind_fails h <| failsFor_pure _
  | .loop cond body, block => by
    rw [stmt]
    exact r.requireOpen_bind_fails <|
      childBlock_bind_fails h fun test ↦ childBlock_bind_fails h fun loop ↦
      childBlock_bind_fails h fun after ↦ jump_bind_fails h <|
      r.condition_bind_fails h fun c hc ↦ branch_bind_fails h hc <|
      (stmts_fails r h body loop).bind_of_keeps (h.stmts_keeps body loop) fun bodyEnd ↦
      close_bind_fails h <| failsFor_pure _
  | .eval value, block => by
    rw [stmt.eq_def]
    refine r.requireOpen_bind_fails ?_
    cases value with
    | call ident args =>
      exact (r.call block ident args).bind_of_keeps (h.call block ident args) fun _ ↦
        failsFor_pure _
    | number | text | name | binary => exact r.expr_bind_fails h fun _ _ ↦ failsFor_pure _
termination_by structural s => s

theorem stmts_fails (r : Refusals outer K Datum E) (h : Invariant outer K Datum Bit) :
    ∀ ss block, FailsFor K (stmts outer ss block) E
  | [], block => failsFor_pure _
  | s :: rest, block => by
    rw [stmts]
    exact (stmt_fails r h s block).bind_of_keeps (h.stmt_keeps s block) fun next ↦
      stmts_fails r h rest next
termination_by structural ss => ss

end

theorem bindParams_fails (r : Refusals outer K Datum E) (h : Invariant outer K Datum Bit)
    (block : Nat) {ps : List (String × Value)} (hps : ∀ p ∈ ps, Datum p.2) :
    FailsFor K (bindParams outer block ps) E := by
  induction ps with
  | nil => exact failsFor_pure _
  | cons p rest ih =>
    obtain ⟨hp, hrest⟩ := List.forall_mem_cons.mp hps
    exact (r.assign block p.1 p.2 hp).bind_of_keeps (h.assign block p.1 p.2 hp) fun _ ↦ ih hrest

theorem finish_fails (r : Refusals outer K Datum E) (head : Prototype) (block : Nat) :
    FailsFor K (finish head block) E := by
  intro fr _ e fr' he
  rw [finish, bind_state_apply] at he
  split at he
  · exact absurd (Prod.mk.inj he).1 (by simp)
  · split at he
    · exact absurd (Prod.mk.inj he).1 (by simp)
    · rw [bind_require_apply] at he
      split at he
      · exact absurd (Prod.mk.inj he).1 (by simp)
      · obtain ⟨⟨⟩, -⟩ := Prod.mk.inj he
        exact r.missingReturn _

/-- A body fails for what its steps fail for. -/
theorem body_fails (r : Refusals outer K Datum E) (h : Invariant outer K Datum Bit)
    {head : Prototype} {ss : List Stmt} {fr : Frame} (hfr : K (fr.enter head))
    (hparams : ∀ p ∈ (fr.enter head).function.bindings head, Datum p.2)
    {e : LoweringError} {fr' : Frame} (he : body head ss outer fr = (.error e, fr')) : E e := by
  rw [body_apply] at he
  exact ((r.bindParams_fails h fr.count hparams).bind_of_keeps (h.bindParams_keeps fr.count hparams)
    fun _ ↦ (r.stmts_fails h ss fr.count).bind_of_keeps (h.stmts_keeps ss fr.count) fun last ↦
    FailsFor.bind (Q := fun _ _ ↦ True) (F := fun _ ↦ True) (r.finish_fails head last)
      (fun _ _ ↦ by unfold Ends; split <;> trivial) fun _ ↦
    failsFor_of_ok fun fr ↦ ⟨_, _, rfl⟩) (fr.enter head) hfr e fr' he

end Refusals

section

variable {outer : Outer} {signature : Signature}

theorem within_fails {α : Type} {m : Env → Lowering Tape α} (block : Nat)
    (hm : ∀ {env : Env}, env.Marked → env.Stored → BodyFails env signature.ret (m env)) :
    FailsFor (fun fr ↦ Frame.Marked outer signature fr ∧ fr.Housed outer) (within outer block m)
      fun e ↦ e.isOfBody := by
  intro fr h e fr' he
  rw [within_apply, onBlock_apply] at he
  exact hm h.1.env h.2.stored (fr.tape block) (h.1.code block) e _
    (Prod.ext (Prod.mk.inj he).1 rfl)

theorem assign_fails (block : Nat) (ident : String) {v : Value} (hv : v.IsDatum) :
    FailsFor (Frame.Housed outer) (assign outer block ident v) fun e ↦ e.isOfBody := by
  intro fr h e fr' he
  cases hlocal : fr.locals ident with
  | some b =>
    obtain ⟨-, index, hvalue, -⟩ := h.locals ident b hlocal
    rw [assign_apply_of_some hlocal, store_apply, if_pos (by rw [hvalue]; rfl)] at he
    split at he
    · exact absurd (Prod.mk.inj he).1 (by simp)
    · obtain ⟨⟨⟩, -⟩ := Prod.mk.inj he
      rfl
  | none =>
    rw [assign_apply_of_none hlocal] at he
    split at he
    · -- The value can be stored, the entry is there, and the new slot is of the right type.
      rw [if_pos (hv.of_ty rfl).1, if_pos h.entry] at he
      simp only [store_apply, Value.kind, ↓reduceIte] at he
      exact absurd (Prod.mk.inj he).1 (by simp)
    · obtain ⟨⟨⟩, -⟩ := Prod.mk.inj he
      rfl

theorem returnValue_fails {P : Frame → Prop} (block : Nat) (v : Value) :
    FailsFor P (returnValue outer block v) fun e ↦ e.isOfBody := by
  intro fr _ e fr' he
  rw [returnValue, bind_state_apply, bind_require_apply] at he
  split at he
  · exact absurd (Prod.mk.inj he).1 (by simp)
  · obtain ⟨⟨⟩, -⟩ := Prod.mk.inj he
    rfl

theorem body_refusals (outer : Outer) (signature : Signature) :
    Refusals outer (fun fr ↦ Frame.Marked outer signature fr ∧ fr.Housed outer)
      (fun v ↦ v.IsDatum ∧ True) fun e ↦ e.isOfBody where
  expr block e := within_fails block fun henv hstored ↦ expr_fails henv hstored e
  condition block e := within_fails block fun henv hstored ↦ condition_fails henv hstored e
  call block ident args := within_fails block fun henv hstored ↦
    callWith_fails ident args.length fun tys hlength ↦
      arguments_fails henv hstored ident args tys hlength
  assign block ident _ hv fr h := assign_fails block ident hv.1 fr h.2
  returnValue block v _ := returnValue_fails block v
  unreachableStmt _ := rfl
  missingReturn _ := rfl

end

/-! ## Declarations -/

section

variable {c c' : Context} {d : Decl} {e : LoweringError}

theorem isOfHead_of_declare {head : Prototype} (h : declare head c = (.error e, c')) :
    e.isOfHead := by
  unfold declare at h
  cases hrepeated : firstRepeated? [] (head.params.map Param.ident) with
  | some ident =>
    rw [hrepeated] at h
    obtain ⟨⟨⟩, -⟩ := Prod.mk.inj h
    rfl
  | none =>
    simp only [hrepeated, bind_state_apply] at h
    cases hid : c.functionId? head.ident with
    | none =>
      rw [hid] at h
      exact absurd (Prod.mk.inj h).1 (by simp)
    | some id =>
      simp only [hid, bind_require_apply] at h
      split at h
      · exact absurd (Prod.mk.inj h).1 (by simp)
      · obtain ⟨⟨⟩, -⟩ := Prod.mk.inj h
        rfl

theorem isOfBody_of_body {c₁ : Context} {id : Nat} {f : Function} {head : Prototype}
    {ss : List Stmt} {fr : Frame} (hparsed : (Decl.function head ss).Parsed) (hnamed : c.Named)
    (hnumeric : c.Numeric) (hdeclares : Declares c head id c₁) (hf : c₁.functions[id]? = some f)
    (hblocks : f.blocks = []) (h : body head ss c₁.outer (c₁.frame id f) = (.error e, fr)) :
    e.isOfBody := by
  have hnamed₁ : c₁.Named := hdeclares.keeps
    (fun hnew hc ↦ hc.declare hnew (hparsed.dot_not_mem (.inr ⟨ss, rfl⟩))) hnamed
  have hnumeric₁ : c₁.Numeric := hdeclares.keeps (fun _ hc ↦ hc.declare head) hnumeric
  exact (body_refusals c₁.outer f.signature).body_fails
    ((marked_invariant (hnamed₁.ret_eq hf)).and (housed_invariant c₁.outer))
    ⟨hnumeric₁.marked_enter head hblocks, .enter c₁.outer _ head⟩
    (fun _ hp ↦ ⟨Function.isDatum_of_mem_bindings hp, trivial⟩) h

theorem isOfConstant_of_constant {globals : Bindings Binding} {value : Expr}
    (h : constant globals value c = (.error e, c')) : e.isOfConstant := by
  cases value with
  | name other =>
    rw [constant] at h
    cases hglobal : globals other with
    | none =>
      rw [hglobal] at h
      obtain ⟨⟨⟩, -⟩ := Prod.mk.inj h
      rfl
    | some b =>
      rw [hglobal] at h
      exact absurd (Prod.mk.inj h).1 (by simp)
  | number => exact absurd (Prod.mk.inj h).1 (by simp)
  | text | call | binary =>
    obtain ⟨⟨⟩, -⟩ := Prod.mk.inj h
    rfl

theorem isOf_of_decl (hparsed : d.Parsed) (hnamed : c.Named) (hnumeric : c.Numeric)
    (h : decl d c = (.error e, c')) : e.isOf d := by
  have heffect := effect_decl d c
  rw [h] at heffect
  cases heffect with
  | refused isHead headRefused =>
    have hhead := isOfHead_of_declare headRefused
    rcases isHead with rfl | ⟨ss, rfl⟩
    · exact hhead
    · simp [LoweringError.isOf, hhead]
  | known => simp [LoweringError.isOf]
  | begun _ declares at? _ noBody lowered =>
    simp [LoweringError.isOf, isOfBody_of_body hparsed hnamed hnumeric declares at? noBody lowered]
  | unbound valueRefused => exact isOfConstant_of_constant valueRefused
  | notNumber _ not isConstant =>
    obtain ⟨other, b, hb, rfl⟩ := isConstant
    obtain ⟨x, hx⟩ := hnumeric other b hb
    exact absurd hx (not x)

/-- In every run, a declaration from a source text is refused for a cause of its kind. -/
theorem isOf_of_error {ds : List Decl} (hds : ∀ d ∈ ds, d.Parsed) (hd : d.Parsed)
    (h : decl d (Context.after ds) = (.error e, c')) : e.isOf d :=
  isOf_of_decl hd (marked_after hds).1 (marked_after hds).2.1 h

/-- A function that is found to be defined already is left as it is, with all of its module. -/
theorem eq_of_alreadyDefined {ds : List Decl} {ident : String} (hds : ∀ d ∈ ds, d.Parsed)
    (hd : d.Parsed) (h : decl d (Context.after ds) = (.error (.alreadyDefined ident), c')) :
    c' = Context.after ds := by
  obtain ⟨hnamed, hnumeric, -⟩ := marked_after hds
  have heffect := effect_decl d (Context.after ds)
  rw [h] at heffect
  cases heffect with
  | refused | known | unbound => rfl
  | begun _ declares at? _ noBody lowered =>
    have hbody := isOfBody_of_body hd hnamed hnumeric declares at? noBody lowered
    exact absurd hbody (by simp [LoweringError.isOfBody])

end

end Lowering

namespace Context

/-- What a declaration comes to in a run depends on those in front of it. -/
theorem getElem?_outcomes (c : Context) (ds : List Decl) (i : Nat) :
    (c.outcomes ds)[i]? =
      ds[i]?.map fun d ↦ (Lowering.decl d ((ds.take i).foldl (fun c d ↦ (Lowering.decl d c).2) c)).1
    := by
  induction ds generalizing c i with
  | nil => rfl
  | cons d ds ih =>
    cases i with
    | zero => rfl
    | succ i => exact ih _ i

end Context

end BlockCompiler
