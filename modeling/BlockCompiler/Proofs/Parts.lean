import BlockCompiler.Proofs.Grammar

/-!
# The parts of a program

The expressions that stand in a tree, nested ones included, in the order in which a run that meets
no branch comes to them: operands from left to right and then their operation, arguments and then
their call, a condition and then its bodies.

String literals have no parts, so that their order is that of the source text, whatever trees the
chains of operators stand for (`Grammar.texts_of_isProgram`).
-/

namespace BlockCompiler

/-! ## Parts -/

mutual

/-- The expressions that stand in an expression, itself at the end. -/
def Expr.parts : Expr → List Expr
  | .number x => [.number x]
  | .text contents => [.text contents]
  | .name ident => [.name ident]
  | .call ident args => Expr.allParts args ++ [.call ident args]
  | .binary op lhs rhs => lhs.parts ++ rhs.parts ++ [.binary op lhs rhs]
termination_by structural e => e

def Expr.allParts : List Expr → List Expr
  | [] => []
  | e :: es => e.parts ++ Expr.allParts es
termination_by structural es => es

end

mutual

/-- The expressions that stand in a statement. -/
def Stmt.parts : Stmt → List Expr
  | .assign _ value | .ret value | .eval value => value.parts
  | .ifThen cond body | .loop cond body => cond.parts ++ Stmt.allParts body
  | .ifElse cond body otherwise => cond.parts ++ Stmt.allParts body ++ Stmt.allParts otherwise
termination_by structural s => s

def Stmt.allParts : List Stmt → List Expr
  | [] => []
  | s :: ss => s.parts ++ Stmt.allParts ss
termination_by structural ss => ss

end

theorem Stmt.allParts_append (ss ss' : List Stmt) :
    Stmt.allParts (ss ++ ss') = Stmt.allParts ss ++ Stmt.allParts ss' := by
  induction ss with
  | nil => rfl
  | cons s ss ih => rw [List.cons_append, Stmt.allParts, Stmt.allParts, ih, List.append_assoc]

/-- The statements of a declaration: the body of a function. -/
def Decl.body : Decl → List Stmt
  | .function _ body => body
  | .external _ | .constant _ _ => []

/-- The expressions that stand in a declaration. -/
def Decl.parts : Decl → List Expr
  | .function _ body => Stmt.allParts body
  | .external _ => []
  | .constant _ value => value.parts

/-! ## String literals and calls -/

def Expr.text? : Expr → Option String
  | .text contents => some contents
  | _ => none

def Expr.isCall : Expr → Bool
  | .call _ _ => true
  | _ => false

/-- The string literals among expressions. -/
abbrev Expr.textsOf (es : List Expr) : List String := es.filterMap Expr.text?

/-- The calls among expressions. -/
abbrev Expr.callsOf (es : List Expr) : List Expr := es.filter Expr.isCall

theorem Expr.textsOf_append (es es' : List Expr) :
    Expr.textsOf (es ++ es') = Expr.textsOf es ++ Expr.textsOf es' :=
  List.filterMap_append

theorem Expr.callsOf_append (es es' : List Expr) :
    Expr.callsOf (es ++ es') = Expr.callsOf es ++ Expr.callsOf es' :=
  List.filter_append ..

def Token.text? : Token → Option String
  | .text contents => some contents
  | _ => none

namespace Grammar

/-! ## String literals in the source text -/

/-- Operators have no text, so the tree of a chain has those of its operands in their order. -/
theorem texts_of_inOrder {p e : Expr} {c : Chain} (h : InOrder p c e) :
    Expr.textsOf e.parts = Expr.textsOf p.parts ++ c.flatMap fun x ↦ Expr.textsOf x.2.parts := by
  induction h with
  | operand => simp
  | node _ _ ihLeft ihRight => simp [Expr.parts, Expr.text?, ihLeft, ihRight]

mutual

theorem texts_of_isPrimary {u : List Token} {p : Expr} :
    IsPrimary InOrder u p → u.filterMap Token.text? = Expr.textsOf p.parts
  | .number | .text | .name | .callNone => rfl
  | .call args => by
    simp [List.filterMap_cons, Token.text?, Expr.parts, Expr.text?, texts_of_isArgs args]
  | .paren inner => by
    simp [List.filterMap_cons, Token.text?, texts_of_isExpr inner]
termination_by structural h => h

theorem texts_of_isOperands {u : List Token} {c : Chain} :
    IsOperands InOrder u c → u.filterMap Token.text? = c.flatMap fun x ↦ Expr.textsOf x.2.parts
  | .nil => rfl
  | .cons operand others => by
    simp [List.filterMap_cons, Token.text?, texts_of_isPrimary operand, texts_of_isOperands others]
termination_by structural h => h

theorem texts_of_isExpr {u : List Token} {e : Expr} :
    IsExpr InOrder u e → u.filterMap Token.text? = Expr.textsOf e.parts
  | .intro first others reading => by
    rw [List.filterMap_append, texts_of_isPrimary first, texts_of_isOperands others,
      texts_of_inOrder reading]
termination_by structural h => h

theorem texts_of_isArgs {u : List Token} {es : List Expr} :
    IsArgs InOrder u es → u.filterMap Token.text? = Expr.textsOf (Expr.allParts es)
  | .one arg => by
    simp [Expr.allParts, texts_of_isExpr arg]
  | .cons arg others => by
    simp [List.filterMap_cons, Token.text?, Expr.allParts, texts_of_isExpr arg,
      texts_of_isArgs others]
termination_by structural h => h

end

theorem texts_of_isOptionalSemi {w : List Token} (h : IsOptionalSemi w) :
    w.filterMap Token.text? = [] := by
  rcases h with rfl | rfl <;> rfl

mutual

theorem texts_of_isStmt {u : List Token} {s : Stmt} :
    IsStmt InOrder u s → u.filterMap Token.text? = Expr.textsOf s.parts
  | .assign _ value | .ret value | .eval value => by
    simp [List.filterMap_cons, Token.text?, Stmt.parts, texts_of_isExpr value]
  | .ifThen cond body semi | .loop cond body semi => by
    simp [List.filterMap_cons, Token.text?, Stmt.parts, texts_of_isExpr cond, texts_of_isBlock body,
      texts_of_isOptionalSemi semi]
  | .ifElse cond body otherwise semi => by
    simp [List.filterMap_cons, Token.text?, Stmt.parts, texts_of_isExpr cond, texts_of_isBlock body,
      texts_of_isBlock otherwise, texts_of_isOptionalSemi semi]
termination_by structural h => h

theorem texts_of_isStmts {u : List Token} {ss : List Stmt} :
    IsStmts InOrder u ss → u.filterMap Token.text? = Expr.textsOf (Stmt.allParts ss)
  | .one only => by
    simp [Stmt.allParts, texts_of_isStmt only]
  | .cons first others => by
    simp [Stmt.allParts, texts_of_isStmt first, texts_of_isStmts others]
termination_by structural h => h

theorem texts_of_isBlock {u : List Token} {ss : List Stmt} :
    IsBlock InOrder u ss → u.filterMap Token.text? = Expr.textsOf (Stmt.allParts ss)
  | .intro inner => by
    simp [List.filterMap_cons, Token.text?, texts_of_isStmts inner]
termination_by structural h => h

end

/-- No string literal stands in the head of a function. -/
theorem texts_of_isPrototype {u : List Token} {head : Prototype} (h : IsPrototype u head) :
    u.filterMap Token.text? = [] := by
  have hparam {u : List Token} {p : Param} (h : IsParam u p) : u.filterMap Token.text? = [] := by
    cases h <;> rfl
  have hparams {u : List Token} {ps : List Param} (h : IsParams u ps) :
      u.filterMap Token.text? = [] := by
    induction h with
    | one param => exact hparam param
    | cons param _ ih => rw [List.filterMap_append, hparam param, List.nil_append]; exact ih
  cases h with
  | noParams => rfl
  | params ps => simp [List.filterMap_cons, Token.text?, hparams ps]

theorem texts_of_isDecl {u : List Token} {d : Decl} (h : IsDecl InOrder u d) :
    u.filterMap Token.text? = Expr.textsOf d.parts := by
  cases h with
  | function prototype body =>
    simp [List.filterMap_cons, Token.text?, Decl.parts, texts_of_isPrototype prototype,
      texts_of_isBlock body]
  | external prototype =>
    simp [List.filterMap_cons, Token.text?, Decl.parts, texts_of_isPrototype prototype]
  | constant value semi =>
    simp [List.filterMap_cons, Token.text?, Decl.parts, texts_of_isExpr value,
      texts_of_isOptionalSemi semi]

/-- The string literals of a program are those of its text, in the same order. -/
theorem texts_of_isProgram {u : List Token} {ds : List Decl} (h : IsProgram InOrder u ds) :
    u.filterMap Token.text? = ds.flatMap fun d ↦ Expr.textsOf d.parts := by
  induction h with
  | nil => rfl
  | semi _ ih => exact ih
  | decl first _ ih => rw [List.filterMap_append, texts_of_isDecl first, ih, List.flatMap_cons]

end Grammar

end BlockCompiler
