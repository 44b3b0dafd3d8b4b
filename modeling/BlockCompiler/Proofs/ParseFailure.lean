import BlockCompiler.Proofs.Phases

/-!
# Where parsing fails

The parser turns to a construct when it sees the first token of it, and each construct tests this
token once more. That second test never fails (`ParseError.isDefensive`), from whatever tokens a
call starts. And a call leaves the end of the tokens that it is given, whether it succeeds or not
(`Outcome.Regular`), so that a parse which goes on behind errors stays within the text
(`Parse.session`).
-/

namespace BlockCompiler

/-- The cause is that a construct does not start with its first token, or that a literal is none. -/
def ParseError.isDefensive : ParseError → Bool
  | unknownLiteral _ | expectedDef | expectedExtern | expectedReturn | expectedIf | expectedWhile
  | expectedName | expectedOpenParen => true
  | _ => false

/-- The tokens left are the end of the given ones, and a failure is no defensive one. -/
inductive Outcome.Regular {α : Type} {n : Nat} (ts : List Token) : Outcome α n → Prop
  | ok {a : α} {rest : List Token} {h : rest.length < n} (suffix : rest <:+ ts) :
      Regular ts (.ok a rest h)
  | error {cause : ParseError} {rest : List Token} (suffix : rest <:+ ts)
      (isRule : cause.isDefensive = false) : Regular ts (.error cause rest)

namespace Outcome.Regular

variable {α β : Type} {m n : Nat} {ts ts' : List Token} {o : Outcome α n}

theorem mono (h : o.Regular ts) (hts : ts <:+ ts') : o.Regular ts' := by
  cases h with
  | ok suffix => exact .ok (suffix.trans hts)
  | error suffix isRule => exact .error (suffix.trans hts) isRule

theorem suffix (h : o.Regular ts) : o.rest <:+ ts := by
  cases h with
  | ok suffix => exact suffix
  | error suffix => exact suffix

theorem andThen {f : α → (rest : List Token) → rest.length < n → Outcome β m} (h : o.Regular ts)
    (hf : ∀ a rest hlt, (f a rest hlt).Regular rest) : (o.andThen f).Regular ts := by
  cases h with
  | ok suffix => exact (hf _ _ _).mono suffix
  | error suffix isRule => exact .error suffix isRule

theorem map {f : α → β} (h : o.Regular ts) : (o.map f).Regular ts := by
  cases h with
  | ok suffix => exact .ok suffix
  | error suffix isRule => exact .error suffix isRule

theorem widen {hle : n ≤ m} (h : o.Regular ts) : (o.widen hle).Regular ts := by
  cases h with
  | ok suffix => exact .ok suffix
  | error suffix isRule => exact .error suffix isRule

theorem isDefensive_of_map {f : α → β} {cause : ParseError} (h : o.Regular ts)
    (ho : o.result.map f = .error cause) : cause.isDefensive = false := by
  cases h with
  | ok => exact absurd ho (by simp [result, Except.map])
  | error _ isRule =>
    obtain rfl := Except.error.inj ho
    exact isRule

end Outcome.Regular

namespace Parse

variable {ts : List Token}

/-! ## Single tokens -/

/-- A test fails defensively only if its token is not there. -/
theorem regular_expect {f : Fixed} {cause : ParseError}
    (h : cause.isDefensive = false ∨ ts.head? = some (.fixed f)) :
    (expect f cause ts).Regular ts := by
  unfold expect
  split
  · next g rest =>
    split
    · exact .ok (List.suffix_cons _ _)
    · next hg => exact .error (List.suffix_refl _) (h.resolve_right (by simpa using hg))
  · next hne =>
    refine .error (List.suffix_refl _) (h.resolve_right fun hhead ↦ ?_)
    obtain ⟨rest, rfl⟩ := List.head?_eq_some_iff.mp hhead
    exact hne _ _ rfl

theorem regular_expectName {cause : ParseError}
    (h : cause.isDefensive = false ∨ ∃ ident, ts.head? = some (.name ident)) :
    (expectName cause ts).Regular ts := by
  unfold expectName
  split
  · exact .ok (List.suffix_cons _ _)
  · next hne =>
    refine .error (List.suffix_refl _) (h.resolve_right fun ⟨ident, hhead⟩ ↦ ?_)
    obtain ⟨rest, rfl⟩ := List.head?_eq_some_iff.mp hhead
    exact hne _ _ rfl

theorem skipSemi_suffix (ts : List Token) : skipSemi ts <:+ ts := by
  unfold skipSemi
  split
  · exact List.suffix_cons _ _
  · exact List.suffix_refl _

/-! ## Expressions -/

theorem regular_literal
    (h : (∃ x, ts.head? = some (.number x)) ∨ ∃ s, ts.head? = some (.text s)) :
    (literal ts).Regular ts := by
  rcases h with ⟨x, hhead⟩ | ⟨s, hhead⟩
  · obtain ⟨rest, rfl⟩ := List.head?_eq_some_iff.mp hhead
    exact .ok (List.suffix_cons _ _)
  · obtain ⟨rest, rfl⟩ := List.head?_eq_some_iff.mp hhead
    exact .ok (List.suffix_cons _ _)

theorem regular_operators_step {least : Nat} {lhs : Expr} {op : Operator} {rest : List Token}
    (hle : least ≤ op.precedence) (hprimary : (primary rest).Regular rest)
    (hright : ∀ q (r : List Token), r.length < rest.length →
      (operators (op.precedence + 1) q r).Regular r)
    (hgo : ∀ r : List Token, r.length < rest.length → ∀ rhs (r' : List Token),
      r'.length < r.length + 1 → (operators least (.binary op lhs rhs) r').Regular r') :
    (operators least lhs (.operator op :: rest)).Regular (.operator op :: rest) := by
  rw [operators, if_pos hle]
  refine .mono ?_ (List.suffix_cons _ _)
  exact hprimary.andThen fun operand r hr ↦ (hright operand r hr).andThen fun rhs r' hr' ↦
    (hgo r hr rhs r' hr').widen

theorem regular_parenthesised_of
    (hexpr : ∀ rest : List Token, rest.length < ts.length → (expr rest).Regular rest)
    (hhead : ts.head? = some (.mark .openParen)) : (parenthesised ts).Regular ts := by
  rw [parenthesised]
  exact (regular_expect (.inr hhead)).andThen fun _ rest hlt ↦
    (hexpr rest hlt).andThen fun inner _ _ ↦
      (regular_expect (.inl rfl)).andThen fun _ _ _ ↦ .ok (List.suffix_refl _)

theorem regular_arguments_of (hexpr : (expr ts).Regular ts)
    (hothers : ∀ rest : List Token, (Token.mark .comma :: rest).length < ts.length →
      (arguments rest).Regular rest) : (arguments ts).Regular ts := by
  rw [arguments]
  refine hexpr.andThen fun arg rest hlt ↦ ?_
  split
  · exact .ok (List.suffix_cons _ _)
  · next hlt => exact ((hothers _ hlt).map.widen).mono (List.suffix_cons _ _)
  · exact .error (List.suffix_refl _) rfl

theorem regular_nameOrCall_of
    (hargs : ∀ rest : List Token, (Token.mark .openParen :: rest).length < ts.length →
      (arguments rest).Regular rest)
    (hhead : ∃ ident, ts.head? = some (.name ident)) : (nameOrCall ts).Regular ts := by
  rw [nameOrCall]
  refine (regular_expectName (.inr hhead)).andThen fun ident rest hlt ↦ ?_
  split
  · exact .ok ((List.suffix_cons _ _).trans (List.suffix_cons _ _))
  · next hlt _ => exact ((hargs _ hlt).map.widen).mono (List.suffix_cons _ _)
  · exact .ok (List.suffix_refl _)

theorem regular_primary_of
    (hname : (∃ ident, ts.head? = some (.name ident)) → (nameOrCall ts).Regular ts)
    (hparen : ts.head? = some (.mark .openParen) → (parenthesised ts).Regular ts) :
    (primary ts).Regular ts := by
  rw [primary]
  split
  · next x hhead => exact regular_literal (.inl ⟨x, hhead⟩)
  · next s hhead => exact regular_literal (.inr ⟨s, hhead⟩)
  · next ident hhead => exact hname ⟨ident, hhead⟩
  · next hhead => exact hparen hhead
  · exact .error (List.suffix_refl _) rfl

theorem regular_expr (ts : List Token) : (expr ts).Regular ts := by
  refine (expr.mutual_induct (fun ts ↦ (expr ts).Regular ts)
    (fun least lhs ts ↦ (operators least lhs ts).Regular ts) (fun ts ↦ (primary ts).Regular ts)
    (fun ts ↦ ts.head? = some (.mark .openParen) → (parenthesised ts).Regular ts)
    (fun ts ↦ (∃ ident, ts.head? = some (.name ident)) → (nameOrCall ts).Regular ts)
    (fun ts ↦ (arguments ts).Regular ts)
    ?expr (fun _ _ _ _ ↦ regular_operators_step)
    ?tooLoose ?noOperator ?number ?text ?name ?openParen ?other
    (fun _ ↦ regular_parenthesised_of) (fun _ ↦ regular_nameOrCall_of)
    fun _ ↦ regular_arguments_of).1 ts
  case expr =>
    intro ts hprimary hoperators
    rw [expr]
    exact hprimary.andThen fun lhs rest hlt ↦ (hoperators lhs rest hlt).widen
  case tooLoose =>
    intro least lhs op rest hloose
    rw [operators, if_neg hloose]
    exact .ok (List.suffix_refl _)
  case noOperator =>
    intro least lhs ts hno
    rw [operators]
    · exact .ok (List.suffix_refl _)
    · exact hno
  case number => exact fun ts x hhead ↦ regular_primary_of (by simp [hhead]) (by simp [hhead])
  case text => exact fun ts s hhead ↦ regular_primary_of (by simp [hhead]) (by simp [hhead])
  case name => exact fun ts _ hhead ih ↦ regular_primary_of ih (by simp [hhead])
  case openParen => exact fun ts hhead ih ↦ regular_primary_of (by simp [hhead]) ih
  case other =>
    exact fun ts _ _ hname hparen ↦
      regular_primary_of (Exists.elim · fun ident hhead ↦ (hname ident hhead).elim)
        fun hhead ↦ (hparen hhead).elim

/-! ## Statements -/

theorem regular_assignment (ts : List Token) : (assignment ts).Regular ts := by
  unfold assignment
  refine .mono ?_ (List.tail_suffix ts)
  exact (regular_expectName (.inl rfl)).andThen fun _ _ _ ↦
    (regular_expect (.inl rfl)).andThen fun _ rest _ ↦ (regular_expr rest).map.widen

theorem regular_simpleStmt (ts : List Token) : (simpleStmt ts).Regular ts := by
  unfold simpleStmt
  split
  · exact (regular_assignment ts).map
  · exact (regular_assignment ts).map
  · next hhead =>
    exact (regular_expect (.inr hhead)).andThen fun _ rest _ ↦ (regular_expr rest).map.widen
  · exact (regular_expr ts).map

theorem regular_stmt_of (hif : ts.head? = some (.keyword .ifKw) → (ifStmt ts).Regular ts)
    (hwhile : ts.head? = some (.keyword .whileKw) → (whileStmt ts).Regular ts) :
    (stmt ts).Regular ts := by
  rw [stmt]
  split
  · next hhead => exact (hif hhead).andThen fun _ rest _ ↦ .ok (skipSemi_suffix rest)
  · next hhead => exact (hwhile hhead).andThen fun _ rest _ ↦ .ok (skipSemi_suffix rest)
  · exact (regular_simpleStmt ts).andThen fun _ _ _ ↦ (regular_expect (.inl rfl)).map.widen

theorem regular_whileStmt_of
    (hblock : ∀ r₁ : List Token, r₁.length < ts.length → ∀ r₂ : List Token,
      r₂.length < r₁.length → (block r₂).Regular r₂)
    (hhead : ts.head? = some (.keyword .whileKw)) : (whileStmt ts).Regular ts := by
  rw [whileStmt]
  exact (regular_expect (.inr hhead)).andThen fun _ r₁ h₁ ↦ (regular_expr r₁).andThen
    fun _ r₂ h₂ ↦ (hblock r₁ h₁ r₂ h₂).map.widen

theorem regular_ifStmt_of
    (hblock : ∀ r₁ : List Token, r₁.length < ts.length → ∀ r₂ : List Token,
      r₂.length < r₁.length → (block r₂).Regular r₂)
    (hotherwise : ∀ r₁ : List Token, r₁.length < ts.length → ∀ r₂ : List Token,
      r₂.length < r₁.length → ∀ r₃ : List Token, (Token.keyword .elseKw :: r₃).length < r₂.length →
      (block r₃).Regular r₃)
    (hhead : ts.head? = some (.keyword .ifKw)) : (ifStmt ts).Regular ts := by
  rw [ifStmt]
  refine (regular_expect (.inr hhead)).andThen fun _ r₁ h₁ ↦ (regular_expr r₁).andThen
    fun _ r₂ h₂ ↦ (hblock r₁ h₁ r₂ h₂).andThen fun _ r₃ h₃ ↦ ?_
  split
  · next h₃ => exact ((hotherwise r₁ h₁ r₂ h₂ _ h₃).map.widen).mono (List.suffix_cons _ _)
  · exact .ok (List.suffix_refl _)

theorem regular_block_of
    (hstmts : ∀ rest : List Token, rest.length < ts.length → (stmts rest).Regular rest) :
    (block ts).Regular ts := by
  rw [block]
  exact (regular_expect (.inl rfl)).andThen fun _ rest hlt ↦ (hstmts rest hlt).widen

theorem regular_stmts_of (hstmt : (stmt ts).Regular ts)
    (hothers : ∀ rest : List Token, rest.length < ts.length → (stmts rest).Regular rest) :
    (stmts ts).Regular ts := by
  rw [stmts]
  refine hstmt.andThen fun s rest hlt ↦ ?_
  split
  · exact .ok (List.suffix_cons _ _)
  · exact (hothers _ hlt).map.widen

theorem regular_stmt_and_block (ts : List Token) :
    (stmt ts).Regular ts ∧ (block ts).Regular ts := by
  have h := stmt.mutual_induct (fun ts ↦ (stmt ts).Regular ts)
    (fun ts ↦ ts.head? = some (.keyword .whileKw) → (whileStmt ts).Regular ts)
    (fun ts ↦ (block ts).Regular ts) (fun ts ↦ (stmts ts).Regular ts)
    (fun ts ↦ ts.head? = some (.keyword .ifKw) → (ifStmt ts).Regular ts)
    (fun _ hhead ih ↦ regular_stmt_of ih (by simp [hhead]))
    (fun _ hhead ih ↦ regular_stmt_of (by simp [hhead]) ih)
    (fun _ hif hwhile ↦ regular_stmt_of (fun h ↦ (hif h).elim) fun h ↦ (hwhile h).elim)
    (fun _ ↦ regular_whileStmt_of) (fun _ ↦ regular_block_of) (fun _ ↦ regular_stmts_of)
    fun _ ↦ regular_ifStmt_of
  exact ⟨h.1 ts, h.2.2.1 ts⟩

/-! ## Declarations -/

theorem regular_param (ts : List Token) : (param ts).Regular ts := by
  unfold param
  split
  · exact ((regular_expectName (.inl rfl)).map.widen).mono (List.suffix_cons _ _)
  · exact ((regular_expectName (.inl rfl)).map.widen).mono (List.suffix_cons _ _)
  · exact .error (List.suffix_refl _) rfl

theorem regular_params (ts : List Token) : (params ts).Regular ts := by
  induction ts using params.induct with
  | case1 ts ih =>
    rw [params]
    refine (regular_param ts).andThen fun p rest hlt ↦ ?_
    split
    · exact .ok (List.suffix_cons _ _)
    · next hlt => exact ((ih _ hlt).map.widen).mono (List.suffix_cons _ _)
    · exact .error (List.suffix_refl _) rfl

theorem regular_prototype (ts : List Token) : (prototype ts).Regular ts := by
  have hret : (returnType ts).Regular ts := by
    unfold returnType
    split
    · exact .ok (List.suffix_cons _ _)
    · exact .error (List.suffix_refl _) rfl
  unfold prototype
  refine hret.andThen fun _ _ _ ↦ (regular_expectName (.inl rfl)).andThen fun _ _ _ ↦
    (regular_expect (.inl rfl)).andThen fun _ rest _ ↦ ?_
  split
  · exact .ok (List.suffix_cons _ _)
  · exact (regular_params rest).map.widen

theorem regular_declaration (t : Token) (ts : List Token) :
    (declaration t ts).Regular (t :: ts) := by
  unfold declaration
  split
  · exact (regular_expect (.inr rfl)).andThen fun _ rest _ ↦ (regular_prototype rest).andThen
      fun _ rest _ ↦ (regular_stmt_and_block rest).2.map.widen
  · exact (regular_expect (.inr rfl)).andThen fun _ rest _ ↦ (regular_prototype rest).andThen
      fun _ _ _ ↦ (regular_expect (.inl rfl)).map.widen
  · exact (regular_assignment _).andThen fun _ rest _ ↦ .ok (skipSemi_suffix rest)
  · exact .error (List.suffix_refl _) rfl

theorem regular_nextDeclaration? {o : Outcome Decl ts.length} (h : nextDeclaration? ts = some o) :
    o.Regular ts := by
  unfold nextDeclaration? at h
  split at h
  · exact absurd h (by simp)
  · next t r hle hskip _ =>
    obtain rfl := Option.some.inj h
    exact ((regular_declaration t r).widen).mono (hskip ▸ skipSemis_suffix ts)

theorem regular_program (ts : List Token) : (program ts).Regular ts := by
  fun_induction program ts with
  | case1 ts => exact .ok List.nil_suffix
  | case2 ts cause rest hnext =>
    cases regular_nextDeclaration? hnext with
    | error suffix isRule => exact .error suffix isRule
  | case3 ts d rest hlt hnext ih =>
    exact (ih.map.widen).mono (regular_nextDeclaration? hnext).suffix

/-! ## Sessions -/

/-- The calls that a parser answers. -/
inductive Call where
  | expr
  | stmt
  | block
  | prototype
  | declaration
  | program
deriving DecidableEq, Repr

/-- The trees that calls yield. -/
inductive Tree where
  | expr (e : Expr)
  | stmt (s : Stmt)
  | block (ss : List Stmt)
  | prototype (head : Prototype)
  /-- There is no declaration at the end of the source. -/
  | declaration (d : Option Decl)
  | program (ds : List Decl)

/-- The declarations in a tree. -/
def Tree.decls : Tree → List Decl
  | declaration (some d) => [d]
  | program ds => ds
  | _ => []

/-- The answer to a call, and the tokens that it leaves. -/
def Call.run (call : Call) (ts : List Token) : Except ParseError Tree × List Token :=
  match call with
  | expr => ((Parse.expr ts).result.map .expr, (Parse.expr ts).rest)
  | stmt => ((Parse.stmt ts).result.map .stmt, (Parse.stmt ts).rest)
  | block => ((Parse.block ts).result.map .block, (Parse.block ts).rest)
  | prototype => ((Parse.prototype ts).result.map .prototype, (Parse.prototype ts).rest)
  | declaration =>
    match nextDeclaration? ts with
    | none => (.ok (.declaration none), [])
    | some o => (o.result.map (.declaration ∘ some), o.rest)
  | program => ((Parse.program ts).result.map .program, (Parse.program ts).rest)

/-- The answers of a parser to one call after the other, each of which starts from the tokens that
the last one left, be it behind a tree or at an error. -/
def session : List Call → List Token → List (Except ParseError Tree)
  | [], _ => []
  | call :: calls, ts => (call.run ts).1 :: session calls (call.run ts).2

section

variable {source : String} {call : Call} {calls : List Call}

/-- A call fails for a rule of the grammar only, and leaves the end of its tokens. -/
theorem run_isDefensive_and_suffix (call : Call) (ts : List Token) :
    (∀ cause, (call.run ts).1 = .error cause → cause.isDefensive = false) ∧
      (call.run ts).2 <:+ ts := by
  have hanswer {α : Type} {n : Nat} {o : Outcome α n} (f : α → Tree) (h : o.Regular ts) :
      (∀ cause, o.result.map f = .error cause → cause.isDefensive = false) ∧ o.rest <:+ ts :=
    ⟨fun _ ↦ h.isDefensive_of_map, h.suffix⟩
  cases call with
  | expr => exact hanswer .expr (regular_expr ts)
  | stmt => exact hanswer .stmt (regular_stmt_and_block ts).1
  | block => exact hanswer .block (regular_stmt_and_block ts).2
  | prototype => exact hanswer .prototype (regular_prototype ts)
  | declaration =>
    rw [Call.run]
    split
    · exact ⟨nofun, List.nil_suffix⟩
    · next hnext => exact hanswer _ (regular_nextDeclaration? hnext)
  | program => exact hanswer .program (regular_program ts)

theorem parsed_of_run {t : Tree} (hts : ts <:+ Token.ofSource source)
    (h : (call.run ts).1 = .ok t) : ∀ d ∈ t.decls, d.Parsed := by
  cases call with
  | declaration =>
    rw [Call.run] at h
    split at h
    · obtain rfl := Except.ok.inj h
      exact nofun
    · next hnext =>
      obtain ⟨d, rest, ⟨hlt, rfl⟩, rfl⟩ := Outcome.exists_yields_of_map_result h
      exact List.forall_mem_singleton.mpr ⟨source, ts, rest, hlt, hts, hnext⟩
  | program =>
    obtain ⟨ds, rest, hds, rfl⟩ := Outcome.exists_yields_of_map_result h
    have heq := declarations_eq_iff.mpr (Outcome.result_eq_ok_iff.mpr ⟨rest, hds⟩)
    have hparsed := parsed_of_mem_declarations hts
    rwa [heq] at hparsed
  | expr | stmt | block | prototype =>
    obtain ⟨_, _, -, rfl⟩ := Outcome.exists_yields_of_map_result h
    exact nofun

/-- No answer of a session is a defensive failure. -/
theorem isDefensive_of_mem_session {cause : ParseError}
    (h : .error cause ∈ session calls ts) : cause.isDefensive = false := by
  induction calls generalizing ts with
  | nil => exact absurd h (List.not_mem_nil)
  | cons call calls ih =>
    rcases List.mem_cons.mp h with h | h
    · exact (run_isDefensive_and_suffix call ts).1 cause h.symm
    · exact ih h

/-- The declarations that a session makes are parsed from the text, also behind errors. -/
theorem parsed_of_mem_session {t : Tree} (hts : ts <:+ Token.ofSource source)
    (h : .ok t ∈ session calls ts) : ∀ d ∈ t.decls, d.Parsed := by
  induction calls generalizing ts with
  | nil => exact absurd h (List.not_mem_nil)
  | cons call calls ih =>
    rcases List.mem_cons.mp h with h | h
    · exact parsed_of_run hts h.symm
    · exact ih ((run_isDefensive_and_suffix call ts).2.trans hts) h

end

end Parse

end BlockCompiler
