import BlockCompiler.Program
import BlockCompiler.Token

/-!
# The grammar

What a source text may look like, as a list of tokens: one relation for each kind of phrase, between
its tokens and its tree. The end of the source is the end of the list.

Operators between primaries form a chain, and the grammar itself does not say which tree a chain
stands for. All relations are therefore given for any reading of chains. `InOrder` admits every tree
whose operands and operators are those of the chain from left to right, and `ByPrecedence` the one
that the binding strengths ask for. Whether tokens are a phrase does not depend on the reading
(`Grammar.exists_program`), since every chain has a tree by precedence.
-/

namespace BlockCompiler

namespace Grammar

/-! ## Chains -/

/-- The operators of a chain, each with the operand behind it. -/
abbrev Chain := List (Operator × Expr)

/-- From left to right the tree has the first operand and then the chain. -/
inductive InOrder : Expr → Chain → Expr → Prop
  | operand {p : Expr} : InOrder p [] p
  | node {p q l r : Expr} {op : Operator} {c₁ c₂ : Chain} (left : InOrder p c₁ l)
      (right : InOrder q c₂ r) : InOrder p (c₁ ++ (op, q) :: c₂) (.binary op l r)

/-- The tree by precedence: its root is the last of the operators that bind least. -/
inductive ByPrecedence : Expr → Chain → Expr → Prop
  | operand {p : Expr} : ByPrecedence p [] p
  | node {p q l r : Expr} {op : Operator} {c₁ c₂ : Chain} (left : ByPrecedence p c₁ l)
      (right : ByPrecedence q c₂ r) (noLooser : ∀ x ∈ c₁, op.precedence ≤ x.1.precedence)
      (tighter : ∀ x ∈ c₂, op.precedence < x.1.precedence) :
      ByPrecedence p (c₁ ++ (op, q) :: c₂) (.binary op l r)

theorem ByPrecedence.inOrder {p e : Expr} {c : Chain} (h : ByPrecedence p c e) : InOrder p c e := by
  induction h with
  | operand => exact .operand
  | node _ _ _ _ ihLeft ihRight => exact .node ihLeft ihRight

/-- A chain has a last operator among those that bind least. -/
theorem exists_root {c : Chain} (h : c ≠ []) :
    ∃ c₁ op q c₂, c = c₁ ++ (op, q) :: c₂ ∧ (∀ x ∈ c₁, op.precedence ≤ x.1.precedence) ∧
      ∀ x ∈ c₂, op.precedence < x.1.precedence := by
  induction c with
  | nil => exact absurd rfl h
  | cons y c ih =>
    by_cases hc : c = []
    · exact ⟨[], y.1, y.2, [], by rw [hc]; rfl, nofun, nofun⟩
    · obtain ⟨c₁, op, q, c₂, rfl, hleft, hright⟩ := ih hc
      rcases Nat.lt_or_ge y.1.precedence op.precedence with hlt | hge
      · refine ⟨[], y.1, y.2, _, rfl, nofun, fun x hx ↦ ?_⟩
        rcases List.mem_append.mp hx with hx | hx
        · exact Nat.lt_of_lt_of_le hlt (hleft x hx)
        · rcases List.mem_cons.mp hx with rfl | hx
          · exact hlt
          · exact Nat.lt_trans hlt (hright x hx)
      · exact ⟨y :: c₁, op, q, c₂, rfl, List.forall_mem_cons.mpr ⟨hge, hleft⟩, hright⟩

/-- Every chain has a tree by precedence. -/
theorem exists_byPrecedence (p : Expr) (c : Chain) : ∃ e, ByPrecedence p c e := by
  by_cases hc : c = []
  · exact ⟨p, hc ▸ .operand⟩
  · obtain ⟨c₁, op, q, c₂, rfl, hleft, hright⟩ := exists_root hc
    obtain ⟨l, hl⟩ := exists_byPrecedence p c₁
    obtain ⟨r, hr⟩ := exists_byPrecedence q c₂
    exact ⟨.binary op l r, .node hl hr hleft hright⟩
termination_by c.length
decreasing_by all_goals grind

/-! ## Expressions -/

section

variable (Reading : Expr → Chain → Expr → Prop)

mutual

/-- Tokens of an operand. -/
inductive IsPrimary : List Token → Expr → Prop
  | number {x : Float} : IsPrimary [.number x] (.number x)
  | text {s : String} : IsPrimary [.text s] (.text s)
  | name {ident : String} : IsPrimary [.name ident] (.name ident)
  | callNone {ident : String} :
      IsPrimary [.name ident, .mark .openParen, .mark .closeParen] (.call ident [])
  | call {ident : String} {u : List Token} {es : List Expr} (args : IsArgs u es) :
      IsPrimary (.name ident :: .mark .openParen :: (u ++ [.mark .closeParen])) (.call ident es)
  | paren {u : List Token} {e : Expr} (inner : IsExpr u e) :
      IsPrimary (.mark .openParen :: (u ++ [.mark .closeParen])) e

/-- Operators, each with an operand behind it. -/
inductive IsOperands : List Token → Chain → Prop
  | nil : IsOperands [] []
  | cons {op : Operator} {u v : List Token} {p : Expr} {c : Chain} (operand : IsPrimary u p)
      (others : IsOperands v c) : IsOperands (.operator op :: (u ++ v)) ((op, p) :: c)

inductive IsExpr : List Token → Expr → Prop
  | intro {u v : List Token} {p e : Expr} {c : Chain} (first : IsPrimary u p)
      (others : IsOperands v c) (reading : Reading p c e) : IsExpr (u ++ v) e

/-- Expressions with commas between them, at least one. -/
inductive IsArgs : List Token → List Expr → Prop
  | one {u : List Token} {e : Expr} (arg : IsExpr u e) : IsArgs u [e]
  | cons {u v : List Token} {e : Expr} {es : List Expr} (arg : IsExpr u e) (others : IsArgs v es) :
      IsArgs (u ++ .mark .comma :: v) (e :: es)

end

theorem IsOperands.append {u v : List Token} {c d : Chain} :
    IsOperands Reading u c → IsOperands Reading v d → IsOperands Reading (u ++ v) (c ++ d)
  | .nil, h => h
  | .cons operand others, h => by
    rw [List.cons_append, List.append_assoc]
    exact .cons operand (others.append h)
termination_by structural h => h

/-! ## Statements -/

/-- A semicolon that may be left out. -/
def IsOptionalSemi (u : List Token) : Prop := u = [] ∨ u = [.mark .semi]

/-- The words that start an assignment. -/
def IsAssigner (k : Keyword) : Prop := k = .setKw ∨ k = .constKw

mutual

inductive IsStmt : List Token → Stmt → Prop
  | assign {k : Keyword} {ident : String} {u : List Token} {e : Expr} (word : IsAssigner k)
      (value : IsExpr Reading u e) :
      IsStmt (.keyword k :: .name ident :: .operator .equal :: (u ++ [.mark .semi]))
        (.assign ident e)
  | ret {u : List Token} {e : Expr} (value : IsExpr Reading u e) :
      IsStmt (.keyword .returnKw :: (u ++ [.mark .semi])) (.ret e)
  | ifThen {u v w : List Token} {e : Expr} {ss : List Stmt} (cond : IsExpr Reading u e)
      (body : IsBlock v ss) (semi : IsOptionalSemi w) :
      IsStmt (.keyword .ifKw :: (u ++ (v ++ w))) (.ifThen e ss)
  | ifElse {u v v' w : List Token} {e : Expr} {ss ss' : List Stmt} (cond : IsExpr Reading u e)
      (body : IsBlock v ss) (otherwise : IsBlock v' ss') (semi : IsOptionalSemi w) :
      IsStmt (.keyword .ifKw :: (u ++ (v ++ .keyword .elseKw :: (v' ++ w)))) (.ifElse e ss ss')
  | loop {u v w : List Token} {e : Expr} {ss : List Stmt} (cond : IsExpr Reading u e)
      (body : IsBlock v ss) (semi : IsOptionalSemi w) :
      IsStmt (.keyword .whileKw :: (u ++ (v ++ w))) (.loop e ss)
  | eval {u : List Token} {e : Expr} (value : IsExpr Reading u e) :
      IsStmt (u ++ [.mark .semi]) (.eval e)

/-- Statements, at least one. -/
inductive IsStmts : List Token → List Stmt → Prop
  | one {u : List Token} {s : Stmt} (only : IsStmt u s) : IsStmts u [s]
  | cons {u v : List Token} {s : Stmt} {ss : List Stmt} (first : IsStmt u s)
      (others : IsStmts v ss) : IsStmts (u ++ v) (s :: ss)

/-- Statements in braces. -/
inductive IsBlock : List Token → List Stmt → Prop
  | intro {u : List Token} {ss : List Stmt} (inner : IsStmts u ss) :
      IsBlock (.mark .openBrace :: (u ++ [.mark .closeBrace])) ss

end

/-! ## Declarations -/

inductive IsParam : List Token → Param → Prop
  | double {ident : String} : IsParam [.ty .double, .name ident] ⟨.double, ident⟩
  | string {ident : String} : IsParam [.ty .string, .name ident] ⟨.string, ident⟩

/-- Parameters with commas between them, at least one. -/
inductive IsParams : List Token → List Param → Prop
  | one {u : List Token} {p : Param} (param : IsParam u p) : IsParams u [p]
  | cons {u v : List Token} {p : Param} {ps : List Param} (param : IsParam u p)
      (others : IsParams v ps) : IsParams (u ++ .mark .comma :: v) (p :: ps)

/-- Tokens of the head of a function. -/
inductive IsPrototype : List Token → Prototype → Prop
  | noParams {t : TypeWord} {ident : String} :
      IsPrototype [.ty t, .name ident, .mark .openParen, .mark .closeParen] ⟨t.toTy, ident, []⟩
  | params {t : TypeWord} {ident : String} {u : List Token} {ps : List Param}
      (params : IsParams u ps) :
      IsPrototype (.ty t :: .name ident :: .mark .openParen :: (u ++ [.mark .closeParen]))
        ⟨t.toTy, ident, ps⟩

inductive IsDecl : List Token → Decl → Prop
  | function {u v : List Token} {head : Prototype} {ss : List Stmt} (prototype : IsPrototype u head)
      (body : IsBlock Reading v ss) : IsDecl (.keyword .defKw :: (u ++ v)) (.function head ss)
  | external {u : List Token} {head : Prototype} (prototype : IsPrototype u head) :
      IsDecl (.keyword .externKw :: (u ++ [.mark .semi])) (.external head)
  | constant {u w : List Token} {ident : String} {e : Expr} (value : IsExpr Reading u e)
      (semi : IsOptionalSemi w) :
      IsDecl (.keyword .constKw :: .name ident :: .operator .equal :: (u ++ w)) (.constant ident e)

/-- Tokens of a program: declarations, with semicolons between them. -/
inductive IsProgram : List Token → List Decl → Prop
  | nil : IsProgram [] []
  | semi {v : List Token} {ds : List Decl} (others : IsProgram v ds) :
      IsProgram (.mark .semi :: v) ds
  | decl {u v : List Token} {d : Decl} {ds : List Decl} (first : IsDecl Reading u d)
      (others : IsProgram v ds) : IsProgram (u ++ v) (d :: ds)

end

/-! ## Phrases by precedence

Whatever the reading, the tokens of a phrase are those of a phrase by precedence. -/

section

variable {Reading : Expr → Chain → Expr → Prop}

mutual

theorem exists_primary {u : List Token} {p : Expr} :
    IsPrimary Reading u p → ∃ p', IsPrimary ByPrecedence u p'
  | .number => ⟨_, .number⟩
  | .text => ⟨_, .text⟩
  | .name => ⟨_, .name⟩
  | .callNone => ⟨_, .callNone⟩
  | .call args => (exists_args args).elim fun _ h ↦ ⟨_, .call h⟩
  | .paren inner => (exists_expr inner).imp fun _ h ↦ .paren h
termination_by structural h => h

theorem exists_operands {u : List Token} {c : Chain} :
    IsOperands Reading u c → ∃ c', IsOperands ByPrecedence u c'
  | .nil => ⟨_, .nil⟩
  | .cons operand others => by
    obtain ⟨p', hp⟩ := exists_primary operand
    obtain ⟨c', hc⟩ := exists_operands others
    exact ⟨_, .cons hp hc⟩
termination_by structural h => h

theorem exists_expr {u : List Token} {e : Expr} :
    IsExpr Reading u e → ∃ e', IsExpr ByPrecedence u e'
  | .intro first others _ => by
    obtain ⟨p', hp⟩ := exists_primary first
    obtain ⟨c', hc⟩ := exists_operands others
    obtain ⟨e', he⟩ := exists_byPrecedence p' c'
    exact ⟨e', .intro hp hc he⟩
termination_by structural h => h

theorem exists_args {u : List Token} {es : List Expr} :
    IsArgs Reading u es → ∃ es', IsArgs ByPrecedence u es'
  | .one arg => (exists_expr arg).elim fun _ h ↦ ⟨_, .one h⟩
  | .cons arg others => by
    obtain ⟨e', he⟩ := exists_expr arg
    obtain ⟨es', hes⟩ := exists_args others
    exact ⟨_, .cons he hes⟩
termination_by structural h => h

end

mutual

theorem exists_stmt {u : List Token} {s : Stmt} :
    IsStmt Reading u s → ∃ s', IsStmt ByPrecedence u s'
  | .assign word value => (exists_expr value).elim fun _ h ↦ ⟨_, .assign word h⟩
  | .ret value => (exists_expr value).elim fun _ h ↦ ⟨_, .ret h⟩
  | .ifThen cond body semi => by
    obtain ⟨e', he⟩ := exists_expr cond
    obtain ⟨ss', hss⟩ := exists_block body
    exact ⟨_, .ifThen he hss semi⟩
  | .ifElse cond body otherwise semi => by
    obtain ⟨e', he⟩ := exists_expr cond
    obtain ⟨ss', hss⟩ := exists_block body
    obtain ⟨ts', hts⟩ := exists_block otherwise
    exact ⟨_, .ifElse he hss hts semi⟩
  | .loop cond body semi => by
    obtain ⟨e', he⟩ := exists_expr cond
    obtain ⟨ss', hss⟩ := exists_block body
    exact ⟨_, .loop he hss semi⟩
  | .eval value => (exists_expr value).elim fun _ h ↦ ⟨_, .eval h⟩
termination_by structural h => h

theorem exists_stmts {u : List Token} {ss : List Stmt} :
    IsStmts Reading u ss → ∃ ss', IsStmts ByPrecedence u ss'
  | .one only => (exists_stmt only).elim fun _ h ↦ ⟨_, .one h⟩
  | .cons first others => by
    obtain ⟨s', hs⟩ := exists_stmt first
    obtain ⟨ss', hss⟩ := exists_stmts others
    exact ⟨_, .cons hs hss⟩
termination_by structural h => h

theorem exists_block {u : List Token} {ss : List Stmt} :
    IsBlock Reading u ss → ∃ ss', IsBlock ByPrecedence u ss'
  | .intro inner => (exists_stmts inner).elim fun _ h ↦ ⟨_, .intro h⟩
termination_by structural h => h

end

theorem exists_decl {u : List Token} {d : Decl} (h : IsDecl Reading u d) :
    ∃ d', IsDecl ByPrecedence u d' := by
  cases h with
  | function prototype body =>
    obtain ⟨ss', hss⟩ := exists_block body
    exact ⟨_, .function prototype hss⟩
  | external prototype => exact ⟨_, .external prototype⟩
  | constant value semi =>
    obtain ⟨e', he⟩ := exists_expr value
    exact ⟨_, .constant he semi⟩

theorem exists_program {u : List Token} {ds : List Decl} (h : IsProgram Reading u ds) :
    ∃ ds', IsProgram ByPrecedence u ds' := by
  induction h with
  | nil => exact ⟨_, .nil⟩
  | semi _ ih => exact ih.imp fun _ ↦ .semi
  | decl first _ ih =>
    obtain ⟨d', hd⟩ := exists_decl first
    obtain ⟨ds', hds⟩ := ih
    exact ⟨_, .decl hd hds⟩

end

end Grammar

end BlockCompiler
