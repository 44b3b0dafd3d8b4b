import BlockCompiler.Diagnostic
import BlockCompiler.Vocabulary

/-!
# What lowering refuses

Each cause stands for one rule that a program breaks. The last two are internal: no program has them
for their cause.
-/

namespace BlockCompiler

/-- The causes for which lowering fails. -/
inductive LoweringError where
  | duplicateParam (ident function : String)
  | conflictingDeclaration (function : String)
  | alreadyDefined (function : String)
  | unknownVariable (ident : String)
  | unknownFunction (function : String)
  | wrongArity (function : String)
  | notConstant (ident : String)
  | constantWritten (ident : String)
  /-- The name is not bound to an address. -/
  | notWritable (ident : String)
  | textOutside
  | callOutside
  | operatorOutside
  | missingReturn (function : String)
  | returnMismatch (function : String)
  | unreachableStmt (function : String)
  | storeMismatch (ident : String)
  | notStorable (ty : Ty) (ident : String)
  | conditionMismatch (found : Ty)
  | argumentMismatch (function : String)
  | voidUsed (function : String)
  | operandMismatch
  | textOperand (op : Operator)
  | operandUnknown
  | noStorageType (ident : String)
  | noEntryBlock
deriving DecidableEq, Repr

namespace LoweringError

def category : LoweringError → Category
  | duplicateParam _ _ | conflictingDeclaration _ | alreadyDefined _ | unknownVariable _
  | unknownFunction _ | wrongArity _ | notConstant _ | constantWritten _ | notWritable _
  | textOutside | callOutside | operatorOutside => .resolution
  | missingReturn _ | returnMismatch _ | unreachableStmt _ | storeMismatch _ | notStorable _ _
  | conditionMismatch _ | argumentMismatch _ | voidUsed _ | operandMismatch | textOperand _
  | operandUnknown => .type
  | noStorageType _ | noEntryBlock => .internal

def message : LoweringError → String
  | duplicateParam ident f => "duplicate parameter " ++ ident ++ " in function: " ++ f
  | conflictingDeclaration f => "conflicting declaration for function: " ++ f
  | alreadyDefined f => "function already defined: " ++ f
  | unknownVariable ident => "could not identify var: " ++ ident
  | unknownFunction f => "could not find function: " ++ f
  | wrongArity f => "incorrect number of arguments passed to: " ++ f
  | notConstant ident => ident ++ " is not equal to constant expression"
  | constantWritten ident => "cannot write to constant variable: " ++ ident
  | notWritable ident => "cannot write to variable " ++ ident
  | textOutside => "cannot use string literal at top level"
  | callOutside => "cannot use call expression at top level"
  | operatorOutside => "cannot use binary expression at top level"
  | missingReturn f => "non-void function: " ++ f ++ " needs return"
  | returnMismatch f => "return type mismatch in function: " ++ f
  | unreachableStmt f => "unreachable statement after return in function: " ++ f
  | storeMismatch ident => "cannot store incompatible type for: " ++ ident
  | notStorable ty ident => "cannot store value of type " ++ ty.text ++ " in: " ++ ident
  | conditionMismatch found => "condition must be a double, found: " ++ found.text
  | argumentMismatch f => "argument type mismatch in call to: " ++ f
  | voidUsed f => "cannot use void value of call to: " ++ f
  | operandMismatch => "types in binary expression must match"
  | textOperand op => "unsupported operator for double: " ++ op.text
  | operandUnknown => "unexpected type in binary expression"
  | noStorageType ident => "variable " ++ ident ++ " has no storage type"
  | noEntryBlock => "function has no entry block"

def diagnostic (e : LoweringError) : Diagnostic := ⟨e.category, e.message⟩

end LoweringError

end BlockCompiler
