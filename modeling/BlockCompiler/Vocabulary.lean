/-!
# Types and operators of the language

The words that source text, program trees and lowering share.
-/

namespace BlockCompiler

/-- The types of the language. Only a failed inference yields `invalid`: it cannot be written. -/
inductive Ty where
  | double
  | string
  | void
  | invalid
deriving DecidableEq, Repr

def Ty.text : Ty → String
  | double => "double"
  | string => "string"
  | void => "void"
  | invalid => "<invalid>"

/-- A variable of the type takes up storage. -/
def Ty.isStorable : Ty → Bool
  | double | string => true
  | void | invalid => false

inductive Operator where
  | equal
  | notEqual
  | less
  | greater
  | add
  | sub
  | mul
deriving DecidableEq, Repr

namespace Operator

/-- The binding strength of an operator: higher binds tighter. -/
def precedence : Operator → Nat
  | equal | notEqual => 0
  | less | greater => 10
  | add | sub => 20
  | mul => 40

/-- Equality is a single `=`: assignment has its own keyword. -/
def text : Operator → String
  | equal => "="
  | notEqual => "!"
  | less => "<"
  | greater => ">"
  | add => "+"
  | sub => "-"
  | mul => "*"

end Operator

end BlockCompiler
