import BlockCompiler.Proofs.Frame
import BlockCompiler.Proofs.Steps

/-!
# Lowering expressions only appends

Whether an expression is accepted or refused, its lowering appends instructions to the block and
adds string constants to the module. None of the instructions is a terminator or stores anything,
and they read variables under their own names (`Instr.Reads`). What an operator or an argument list
takes back is what it appended itself, so the code before it is never touched.

This is one of several relations between the ends of a block before and after an expression. The
recursion over expressions is the same for all of them: a relation holds along an expression if it
does along the few steps that expressions are made of (`Lowering.Along`).
-/

namespace BlockCompiler

/-! ## Growing -/

/-- The names that string constants get: no function that is written in a program has such a name,
except `str` itself. -/
def IsTextSymbol (n : String) : Prop := n = "str" ∨ ∃ k, n = NameTable.numbered "str" "." k

/-- String constants are added and none is changed. -/
structure Symbols.Extends (s s' : Symbols) : Prop where
  texts : s.texts <+: s'.texts
  used : s.names.used ⊆ s'.names.used
  fresh : ∀ n ∈ s'.names.used, n ∈ s.names.used ∨ IsTextSymbol n
  /-- Once there is a string constant, the name that all of them ask for is in use. -/
  taken : s' = s ∨ s'.texts ≠ [] ∧ "str" ∈ s'.names.used

namespace Symbols.Extends

variable {s₁ s₂ s₃ : Symbols}

theorem refl (s : Symbols) : s.Extends s :=
  ⟨List.prefix_refl _, List.Subset.refl _, fun _ ↦ .inl, .inl rfl⟩

theorem trans (h₁ : s₁.Extends s₂) (h₂ : s₂.Extends s₃) : s₁.Extends s₃ where
  texts := h₁.texts.trans h₂.texts
  used := List.Subset.trans h₁.used h₂.used
  fresh n hn := by
    rcases h₂.fresh n hn with h | h
    · exact h₁.fresh n h
    · exact .inr h
  taken := by
    rcases h₂.taken with rfl | h
    · exact h₁.taken
    · exact .inr h

theorem addText (s : Symbols) (contents : String) : s.Extends (s.addText contents).2 := by
  refine ⟨List.prefix_append _ _, ?_, ?_, .inr ⟨by simp [Symbols.addText], ?_⟩⟩ <;>
    simp only [Symbols.addText, NameTable.add]
  · split
    · exact List.subset_cons_self _ _
    · exact List.subset_cons_self _ _
  · intro n hn
    split at hn <;> rcases List.mem_cons.mp hn with rfl | hn
    · exact .inr (.inr ⟨_, rfl⟩)
    · exact .inl hn
    · exact .inr (.inl rfl)
    · exact .inl hn
  · split
    · next h => exact List.mem_cons_of_mem _ h
    · exact List.mem_cons_self

end Symbols.Extends

/-- Instructions of which `P` holds are appended, and string constants are added. -/
structure Tape.Appends (P : Instr → Prop) (t t' : Tape) : Prop where
  code : ∃ more, t'.code = t.code ++ more ∧ ∀ i ∈ more, P i
  symbols : t.symbols.Extends t'.symbols

namespace Tape.Appends

variable {P Q : Instr → Prop} {t t₁ t₂ t₃ : Tape}

theorem refl (t : Tape) : t.Appends P t :=
  ⟨⟨[], (List.append_nil _).symm, by simp⟩, .refl _⟩

theorem trans (h₁ : t₁.Appends P t₂) (h₂ : t₂.Appends P t₃) : t₁.Appends P t₃ := by
  obtain ⟨more₁, hcode₁, hmore₁⟩ := h₁.code
  obtain ⟨more₂, hcode₂, hmore₂⟩ := h₂.code
  exact ⟨⟨more₁ ++ more₂, by rw [hcode₂, hcode₁, List.append_assoc],
    List.forall_mem_append.mpr ⟨hmore₁, hmore₂⟩⟩, h₁.symbols.trans h₂.symbols⟩

instance : Std.Refl (Tape.Appends P) := ⟨refl⟩

instance : Trans (Tape.Appends P) (Tape.Appends P) (Tape.Appends P) := ⟨trans⟩

theorem mono (h : t₁.Appends P t₂) (hP : ∀ i, P i → Q i) : t₁.Appends Q t₂ := by
  obtain ⟨more, hcode, hmore⟩ := h.code
  exact ⟨⟨more, hcode, fun i hi ↦ hP i (hmore i hi)⟩, h.symbols⟩

end Tape.Appends

/-- Instructions that end no block are appended, and string constants are added. -/
structure Tape.Extends (t t' : Tape) : Prop where
  code : ∃ more, t'.code = t.code ++ more ∧ ∀ i ∈ more, i.isTerminator = false
  symbols : t.symbols.Extends t'.symbols

theorem Tape.extends_iff {t t' : Tape} :
    t.Extends t' ↔ t.Appends (fun i ↦ i.isTerminator = false) t' :=
  ⟨fun h ↦ ⟨h.code, h.symbols⟩, fun h ↦ ⟨h.code, h.symbols⟩⟩

namespace Tape.Extends

variable {t₁ t₂ t₃ : Tape}

theorem refl (t : Tape) : t.Extends t := extends_iff.mpr (.refl t)

theorem trans (h₁ : t₁.Extends t₂) (h₂ : t₂.Extends t₃) : t₁.Extends t₃ :=
  extends_iff.mpr ((extends_iff.mp h₁).trans (extends_iff.mp h₂))

instance : Std.Refl Tape.Extends := ⟨refl⟩

instance : Trans Tape.Extends Tape.Extends Tape.Extends := ⟨trans⟩

theorem prefix_code (h : t₁.Extends t₂) : t₁.code <+: t₂.code := by
  obtain ⟨more, hcode, -⟩ := h.code
  exact ⟨more, hcode.symm⟩

end Tape.Extends

/-- The instruction belongs to an expression: it ends no block and stores nothing, and a variable is
read where its name is bound. -/
inductive Instr.Reads (locals : Bindings Binding) : Instr → Prop
  | load {ident : String} {b : Binding} (bound : locals ident = some b) :
      Reads locals (.load b.value ident)
  | arith {op : Arith} {lhs rhs : Value} : Reads locals (.arith op lhs rhs)
  | compare {relation : Comparison} {lhs rhs : Value} : Reads locals (.compare relation lhs rhs)
  | test {value : Value} : Reads locals (.test value)
  | promote {value : Value} : Reads locals (.promote value)
  | call {symbol : String} {ret : Ty} {args : List Value} : Reads locals (.call symbol ret args)

theorem Instr.Reads.isTerminator {locals : Bindings Binding} {i : Instr}
    (h : i.Reads locals) : i.isTerminator = false := by
  cases h <;> rfl

/-! ## Expressions -/

namespace Lowering

theorem emit_appends {P : Instr → Prop} {i : Instr} (h : P i) (kind : Kind) :
    Moves (Tape.Appends P) (emit i kind) := by
  intro t
  refine ⟨⟨[i], rfl, ?_⟩, .refl _⟩
  simpa using h

theorem emit_moves {i : Instr} (h : i.isTerminator = false) (kind : Kind) :
    Moves Tape.Extends (emit i kind) :=
  (emit_appends h kind).mono fun _ _ ↦ Tape.extends_iff.mpr

theorem mark_eq_some_iff {code : List Instr} {n : Nat} :
    mark code = some n ↔ code.length = n + 1 := by
  unfold mark
  split
  · next h => simp [h]
  · next h => simp [h, eq_comm]

/-- The mark of a block finds its end again behind whatever was appended. -/
theorem eraseUntil_append (code : List Instr) (more : List Instr) :
    eraseUntil (mark code) (more ++ code.reverse) = code.reverse := by
  induction more with
  | nil =>
    rw [List.nil_append]
    cases hcode : code.reverse with
    | nil => rfl
    | cons i before =>
      have hlength : code.length = before.length + 1 := by
        rw [← List.length_reverse, hcode, List.length_cons]
      exact if_pos (mark_eq_some_iff.mpr hlength)
  | cons i more ih =>
    have hne : mark code ≠ some (more ++ code.reverse).length := fun h ↦ by
      have hlength := mark_eq_some_iff.mp h
      rw [List.length_append, List.length_reverse] at hlength
      omega
    rw [List.cons_append, eraseUntil, if_neg hne, ih]

theorem truncate_append (code more : List Instr) : truncate (mark code) (code ++ more) = code := by
  rw [truncate, List.reverse_append, eraseUntil_append, List.reverse_reverse]

/-- A step that takes back what it appended leaves the code as it was. -/
theorem code_rewinding_of_error {α : Type} {m : Lowering Tape α} (h : Moves Tape.Extends m)
    {t t' : Tape} {e : LoweringError} (hm : rewinding m t = (.error e, t')) : t'.code = t.code := by
  have hmove := h t
  rw [rewinding] at hm
  rcases hr : m t with ⟨_ | a, t₁⟩
  · rw [hr] at hm hmove
    -- What is cut off is what the step itself appended.
    obtain ⟨more, hcode, -⟩ := hmove.code
    rw [← (Prod.mk.inj hm).2]
    change truncate (mark t.code) t₁.code = t.code
    rw [hcode, truncate_append]
  · rw [hr] at hm
    exact absurd (Prod.mk.inj hm).1 (by simp)

theorem rewinding_eq_ok_iff {α : Type} {m : Lowering Tape α} {t t' : Tape} {a : α} :
    rewinding m t = (.ok a, t') ↔ m t = (.ok a, t') := by
  rw [rewinding]
  rcases m t with ⟨_ | _, _⟩ <;> simp

theorem rewinding_appends {α : Type} {P : Instr → Prop} {m : Lowering Tape α}
    (h : Moves (Tape.Appends P) m) (hextends : Moves Tape.Extends m) :
    Moves (Tape.Appends P) (rewinding m) := by
  intro t
  have hmove := h t
  rcases hr : rewinding m t with ⟨e | a, t'⟩
  · refine ⟨⟨[], ?_, by simp⟩, ?_⟩
    · rw [List.append_nil, code_rewinding_of_error hextends hr]
    · rw [rewinding] at hr
      rcases hm : m t with ⟨_ | _, t₁⟩ <;> rw [hm] at hr hmove
      · rw [← (Prod.mk.inj hr).2]
        exact hmove.symbols
      · exact absurd (Prod.mk.inj hr).1 (by simp)
  · rw [rewinding_eq_ok_iff.mp hr] at hmove
    exact hmove

theorem rewinding_moves {α : Type} {m : Lowering Tape α} (h : Moves Tape.Extends m) :
    Moves Tape.Extends (rewinding m) :=
  (rewinding_appends (h.mono fun _ _ ↦ Tape.extends_iff.mp) h).mono fun _ _ ↦ Tape.extends_iff.mpr

/-- A step that takes its instructions back leaves the code as it was if it is refused. The string
constants that it added stay. -/
theorem Triple.rewinding {α : Type} {P E F : Tape → Prop} {Q : α → Tape → Prop}
    {m : Lowering Tape α} (h : Triple P m Q F) (hm : Moves Tape.Extends m)
    (hE : ∀ t symbols, P t → t.symbols.Extends symbols → E { t with symbols }) :
    Triple P (rewinding m) Q E := by
  intro t ht
  rcases hr : Lowering.rewinding m t with ⟨e | a, ⟨code, symbols⟩⟩
  · have hmove := (rewinding_moves hm).of_eq hr
    obtain rfl : code = t.code := code_rewinding_of_error hm hr
    exact hE t symbols ht hmove.symbols
  · exact h.of_ok ht (rewinding_eq_ok_iff.mp hr)

/-- Operands are either two numbers or refused. -/
theorem Triple.combine {P E : Tape → Prop} {Q : Value → Tape → Prop} {op : Operator}
    {lhs rhs : Value} (hE : ∀ t, P t → E t)
    (h : lhs.kind = .double → rhs.kind = .double → Triple P (operate op lhs rhs) Q E) :
    Triple P (combine op lhs rhs) Q E := by
  unfold Lowering.combine
  split
  · next hkinds => exact h hkinds.1 hkinds.2
  · split
    · exact .of_fail hE
    · split
      · exact .of_fail hE
      · exact .of_fail hE

/-! ### The steps of expressions -/

/-- The relation holds along the instructions of operators and names: of all of those of expressions
but calls. -/
def OperatesAlong (locals : Bindings Binding) (R : Tape → Tape → Prop) : Prop :=
  ∀ i kind, Instr.Reads locals i → (∀ symbol ret args, i ≠ .call symbol ret args) →
    Moves R (emit i kind)

/-- The relation holds along the steps that expressions are made of: along an instruction and a
string constant, and along a step that takes its instructions back if it does along the step. -/
structure Along (locals : Bindings Binding) (R : Tape → Tape → Prop) : Prop where
  emit : ∀ i kind, Instr.Reads locals i → Moves R (emit i kind)
  text : ∀ contents, Moves R (text contents)
  rewinding : ∀ {α : Type} {m : Lowering Tape α}, Moves R m → Moves R (rewinding m)

section

variable {locals : Bindings Binding} {env : Env} {R : Tape → Tape → Prop}

theorem Along.operates (h : Along locals R) : OperatesAlong locals R := fun i kind hi _ ↦
  h.emit i kind hi

variable [Std.Refl R]

theorem arith_along (h : OperatesAlong locals R) (op : Arith) (lhs rhs : Value) :
    Moves R (arith op lhs rhs) := by
  unfold arith
  split
  · exact moves_pure _
  · exact h _ _ .arith nofun

theorem compare_along (h : OperatesAlong locals R) (relation : Comparison) (lhs rhs : Value) :
    Moves R (compare relation lhs rhs) := by
  unfold compare
  split
  · exact moves_pure _
  · exact h _ _ .compare nofun

theorem test_along (h : OperatesAlong locals R) (v : Value) : Moves R (test v) := by
  unfold test
  split
  · exact moves_pure _
  · exact h _ _ .test nofun

theorem promote_along (h : OperatesAlong locals R) (v : Value) : Moves R (promote v) := by
  unfold promote
  split
  · exact moves_pure _
  · exact h _ _ .promote nofun

variable [Trans R R R]

theorem combine_along (h : OperatesAlong locals R) (op : Operator) (lhs rhs : Value) :
    Moves R (combine op lhs rhs) := by
  unfold combine
  split
  · cases op with
    | add | sub | mul => exact arith_along h _ lhs rhs
    | less | greater | equal | notEqual =>
      exact (compare_along h _ lhs rhs).bind fun v ↦ promote_along h v
  · split
    · exact moves_fail _
    · split
      · exact moves_fail _
      · exact moves_fail _

theorem address_bind {σ β : Type} (ident : String) (b : Binding) (f : Value → Lowering σ β) :
    (address ident b >>= f) =
      (do
        require (b.value.kind = .pointer) (.notWritable ident)
        f b.value) := by
  rw [address, bind_assoc]
  rfl

theorem readName_along (h : OperatesAlong env.locals R) (ident : String) :
    Moves R (readName env ident) := by
  unfold readName
  split
  · next b hb =>
    rw [address_bind]
    exact (moves_require _ _).bind fun _ ↦ (moves_require _ _).bind fun _ ↦
      h _ _ (.load hb) nofun
  · split
    · exact moves_pure _
    · exact moves_fail _

theorem callWith_along (h : Along locals R) (ident : String) (count : Nat)
    {args : List Ty → Lowering Tape (List Value)} (hargs : ∀ tys, Moves R (args tys)) :
    Moves R (callWith env ident count args) := by
  unfold callWith
  split
  · exact moves_fail _
  · exact (moves_require _ _).bind fun _ ↦ (h.rewinding (hargs _)).bind fun values ↦
      (h.emit _ _ .call).bind fun result ↦ moves_pure _

theorem arguments_nil (env : Env) (ident : String) (tys : List Ty) :
    arguments env ident [] tys = pure [] := by
  rw [arguments]
  simp

theorem arguments_cons_nil (env : Env) (ident : String) (e : Expr) (es : List Expr) :
    arguments env ident (e :: es) [] = pure [] := by
  rw [arguments]
  simp

mutual

theorem expr_along (h : Along env.locals R) : ∀ e, Moves R (expr env e)
  | .number x => moves_pure _
  | .text contents => h.text contents
  | .name ident => readName_along h.operates ident
  | .call ident args => by
    rw [expr]
    refine (callWith_along h ident args.length fun tys ↦
      arguments_along h ident args tys).bind fun result ↦ ?_
    cases result with
    | none => exact moves_fail _
    | some value => exact moves_pure _
  | .binary op lhs rhs => by
    rw [expr]
    exact h.rewinding ((expr_along h lhs).bind fun l ↦
      (expr_along h rhs).bind fun r ↦ combine_along h.operates op l r)
termination_by structural e => e

theorem arguments_along (h : Along env.locals R) (ident : String) :
    ∀ es tys, Moves R (arguments env ident es tys)
  | [], _ => by
    rw [arguments_nil]
    exact moves_pure _
  | _ :: _, [] => by
    rw [arguments_cons_nil]
    exact moves_pure _
  | e :: es, ty :: tys => by
    rw [arguments]
    exact (expr_along h e).bind fun value ↦ (moves_require _ _).bind fun _ ↦
      (arguments_along h ident es tys).bind fun values ↦ moves_pure _
termination_by structural es => es

end

theorem call_along (h : Along env.locals R) (ident : String) (args : List Expr) :
    Moves R (call env ident args) :=
  callWith_along h ident args.length fun tys ↦ arguments_along h ident args tys

theorem condition_along (h : Along env.locals R) (cond : Expr) : Moves R (condition env cond) :=
  (expr_along h cond).bind fun value ↦ (moves_require _ _).bind fun _ ↦
    test_along h.operates value

end

/-! ### What expressions append -/

section

variable {α : Type} {locals : Bindings Binding}

/-- The step appends instructions of expressions only. -/
abbrev Reads (locals : Bindings Binding) (m : Lowering Tape α) : Prop :=
  Moves (Tape.Appends (Instr.Reads locals)) m

theorem Reads.moves {m : Lowering Tape α} (h : Reads locals m) : Moves Tape.Extends m :=
  h.mono fun _ _ happends ↦ Tape.extends_iff.mpr (happends.mono fun _ ↦ Instr.Reads.isTerminator)

theorem reads_along (locals : Bindings Binding) :
    Along locals (Tape.Appends (Instr.Reads locals)) where
  emit _ kind hi := emit_appends hi kind
  text contents t := ⟨⟨[], (List.append_nil _).symm, by simp⟩, .addText t.symbols contents⟩
  rewinding h := rewinding_appends h (Reads.moves h)

theorem extends_along (locals : Bindings Binding) : Along locals Tape.Extends where
  emit _ kind hi := emit_moves hi.isTerminator kind
  text contents := Reads.moves ((reads_along locals).text contents)
  rewinding := rewinding_moves

theorem expr_reads (env : Env) (e : Expr) : Reads env.locals (expr env e) :=
  expr_along (reads_along _) e

theorem call_reads (env : Env) (ident : String) (args : List Expr) :
    Reads env.locals (call env ident args) :=
  call_along (reads_along _) ident args

theorem condition_reads (env : Env) (cond : Expr) : Reads env.locals (condition env cond) :=
  condition_along (reads_along _) cond

end

theorem test_moves (v : Value) : Moves Tape.Extends (test v) :=
  test_along (extends_along fun _ ↦ none).operates v

theorem promote_moves (v : Value) : Moves Tape.Extends (promote v) :=
  promote_along (extends_along fun _ ↦ none).operates v

theorem combine_moves (op : Operator) (lhs rhs : Value) :
    Moves Tape.Extends (combine op lhs rhs) :=
  combine_along (extends_along fun _ ↦ none).operates op lhs rhs

theorem expr_moves (env : Env) (e : Expr) : Moves Tape.Extends (expr env e) :=
  expr_along (extends_along _) e

theorem arguments_moves (env : Env) (ident : String) (es : List Expr) (tys : List Ty) :
    Moves Tape.Extends (arguments env ident es tys) :=
  arguments_along (extends_along _) ident es tys

theorem call_moves (env : Env) (ident : String) (args : List Expr) :
    Moves Tape.Extends (call env ident args) :=
  call_along (extends_along _) ident args

theorem condition_moves (env : Env) (cond : Expr) : Moves Tape.Extends (condition env cond) :=
  condition_along (extends_along _) cond

/-! ### Expressions that are accepted -/

/-- A call is accepted if its function is known and its arguments are lowered and match, and its
instruction stands behind theirs. -/
theorem call_eq_ok_iff {env : Env} {ident : String} {args : List Expr} {result : Option Value}
    {t t' : Tape} :
    call env ident args t = (.ok result, t') ↔
      ∃ callee values t₁, env.callee? ident = some callee ∧ callee.params.length = args.length ∧
        arguments env ident args callee.params t = (.ok values, t₁) ∧
        (do
          let result ← emit (.call callee.symbol callee.ret values) callee.ret.kind
          pure (if callee.ret.isStorable then some result else none)) t₁ = (.ok result, t') := by
  rw [call, callWith]
  cases hcallee : env.callee? ident with
  | none => simp [fail]
  | some callee =>
    simp only [bind_require_apply, Option.some.injEq, exists_and_left, exists_eq_left']
    split
    · next arity => simp only [bind_eq_ok_iff, rewinding_eq_ok_iff, arity, true_and]
    · next arity => simp [arity]

/-- A call that is used has a result. -/
theorem expr_call_eq_ok_iff {env : Env} {ident : String} {args : List Expr} {v : Value}
    {t t' : Tape} :
    expr env (.call ident args) t = (.ok v, t') ↔
      call env ident args t = (.ok (some v), t') := by
  rw [expr, ← call, bind_eq_ok_iff]
  constructor
  · rintro ⟨result, t₁, hcall, hresult⟩
    cases result with
    | none => exact nomatch (Prod.mk.inj hresult).1
    | some v' =>
      obtain ⟨⟨⟩, rfl⟩ := Prod.mk.inj hresult
      exact hcall
  · exact fun hcall ↦ ⟨some v, t', hcall, rfl⟩

/-- The operands of an operator are lowered from left to right. -/
theorem expr_binary_eq_ok_iff {env : Env} {op : Operator} {lhs rhs : Expr} {v : Value}
    {t t' : Tape} :
    expr env (.binary op lhs rhs) t = (.ok v, t') ↔
      ∃ l t₁, expr env lhs t = (.ok l, t₁) ∧ ∃ r t₂, expr env rhs t₁ = (.ok r, t₂) ∧
        combine op l r t₂ = (.ok v, t') := by
  rw [expr, rewinding_eq_ok_iff]
  simp only [bind_eq_ok_iff]

/-- Arguments are lowered from left to right, and each is of the type of its parameter. -/
theorem arguments_cons_eq_ok_iff {env : Env} {ident : String} {e : Expr} {es : List Expr} {ty : Ty}
    {tys : List Ty} {values : List Value} {t t' : Tape} :
    arguments env ident (e :: es) (ty :: tys) t = (.ok values, t') ↔
      ∃ value t₁ rest, expr env e t = (.ok value, t₁) ∧ value.ty = ty ∧
        arguments env ident es tys t₁ = (.ok rest, t') ∧ values = value :: rest := by
  rw [arguments, bind_eq_ok_iff]
  simp only [bind_require_apply]
  constructor
  · rintro ⟨value, t₁, hvalue, h⟩
    split at h
    · next hty =>
      obtain ⟨rest, t₂, hrest, h⟩ := bind_eq_ok_iff.mp h
      obtain ⟨⟨⟩, rfl⟩ := Prod.mk.inj h
      exact ⟨value, t₁, rest, hvalue, hty, hrest, rfl⟩
    · exact nomatch (Prod.mk.inj h).1
  · rintro ⟨value, t₁, rest, hvalue, hty, hrest, rfl⟩
    refine ⟨value, t₁, hvalue, ?_⟩
    rw [if_pos hty]
    exact bind_eq_ok_iff.mpr ⟨rest, t', hrest, rfl⟩

/-- A condition is a number, which is tested. -/
theorem condition_eq_ok_iff {env : Env} {cond : Expr} {v : Value} {t t' : Tape} :
    condition env cond t = (.ok v, t') ↔
      ∃ value t₁, expr env cond t = (.ok value, t₁) ∧ value.kind = .double ∧
        test value t₁ = (.ok v, t') := by
  rw [condition, bind_eq_ok_iff]
  simp only [bind_require_apply]
  refine exists_congr fun value ↦ exists_congr fun t₁ ↦ and_congr_right fun _ ↦ ?_
  split
  · next hkind => simp [hkind]
  · next hkind => simp [hkind]

end Lowering

end BlockCompiler
