import BlockCompiler.Vocabulary

/-!
# Programs as trees

Types of expressions are not part of a tree: they are inferred when it is lowered.
-/

namespace BlockCompiler

inductive Expr where
  | number (value : Float)
  /-- A string literal, without its quotes. -/
  | text (contents : String)
  /-- The value of a variable or of a constant. -/
  | name (ident : String)
  | call (callee : String) (args : List Expr)
  | binary (op : Operator) (lhs rhs : Expr)

/-- Statements. A condition holds if it is greater than zero. -/
inductive Stmt where
  /-- Gives a local variable a value; the first assignment declares it. -/
  | assign (ident : String) (value : Expr)
  | ret (value : Expr)
  | ifThen (cond : Expr) (body : List Stmt)
  | ifElse (cond : Expr) (body otherwise : List Stmt)
  | loop (cond : Expr) (body : List Stmt)
  /-- An expression whose value is dropped. -/
  | eval (value : Expr)

structure Param where
  ty : Ty
  ident : String
deriving DecidableEq, Repr

/-- The head of a function. -/
structure Prototype where
  ret : Ty
  ident : String
  params : List Param
deriving DecidableEq, Repr

inductive Decl where
  | function (head : Prototype) (body : List Stmt)
  /-- A function whose body is elsewhere. -/
  | external (head : Prototype)
  /-- A global constant. -/
  | constant (ident : String) (value : Expr)

end BlockCompiler
