import BlockCompiler.Program
import BlockCompiler.Decimal.Text

/-!
# Programs as text

Every tree has one written form, on one line. Binary expressions are in parentheses, so that the
form shows the tree. Numbers have a fraction or an exponent.
-/

namespace BlockCompiler

/-- Texts with a comma and a space between them. -/
def commaSeparated : List String → String
  | [] => ""
  | [s] => s
  | s :: t :: rest => s ++ ", " ++ commaSeparated (t :: rest)

mutual

def Expr.toText : Expr → String
  | .number value => Decimal.markedLayout.write value
  | .text contents => "\"" ++ contents ++ "\""
  | .name ident => ident
  | .call callee args => callee ++ "(" ++ commaSeparated (Expr.toTexts args) ++ ")"
  | .binary op lhs rhs => "(" ++ lhs.toText ++ " " ++ op.text ++ " " ++ rhs.toText ++ ")"
termination_by structural e => e

def Expr.toTexts : List Expr → List String
  | [] => []
  | e :: es => e.toText :: Expr.toTexts es
termination_by structural es => es

end

/-- The text of a block, of the text of its statements. -/
def braced (body : String) : String := "\x7b" ++ body ++ " \x7d"

mutual

def Stmt.toText : Stmt → String
  | .assign ident value => "set " ++ ident ++ " = " ++ value.toText ++ ";"
  | .ret value => "return " ++ value.toText ++ ";"
  | .ifThen cond body => "if " ++ cond.toText ++ " " ++ braced (Stmt.bodyText body)
  | .ifElse cond body otherwise =>
    "if " ++ cond.toText ++ " " ++ braced (Stmt.bodyText body) ++ " else " ++
      braced (Stmt.bodyText otherwise)
  | .loop cond body => "while " ++ cond.toText ++ " " ++ braced (Stmt.bodyText body)
  | .eval value => value.toText ++ ";"
termination_by structural s => s

/-- Statements with a space before each. -/
def Stmt.bodyText : List Stmt → String
  | [] => ""
  | s :: ss => " " ++ s.toText ++ Stmt.bodyText ss
termination_by structural ss => ss

end

def Param.toText (p : Param) : String := p.ty.text ++ " " ++ p.ident

def Prototype.toText (p : Prototype) : String :=
  p.ret.text ++ " " ++ p.ident ++ "(" ++ commaSeparated (p.params.map Param.toText) ++ ")"

def Decl.toText : Decl → String
  | .function head body => "def " ++ head.toText ++ " " ++ braced (Stmt.bodyText body)
  | .external head => "extern " ++ head.toText ++ ";"
  | .constant ident value => "const " ++ ident ++ " = " ++ value.toText ++ ";"

end BlockCompiler
