/-!
# Diagnostics

What a failed compilation reports: a category and a message. There are no positions.
-/

namespace BlockCompiler

inductive Category where
  /-- The grammar is violated. -/
  | parse
  /-- A name is unknown, or is used against the rules of its scope. -/
  | resolution
  /-- Operands, arguments or results do not fit. -/
  | type
  /-- The lowering broke one of its own rules. -/
  | internal
deriving DecidableEq, Repr

structure Diagnostic where
  category : Category
  message : String
deriving DecidableEq, Repr

/-- The text of a diagnostic. Only internal failures are marked. -/
def Diagnostic.toText (d : Diagnostic) : String :=
  match d.category with
  | .internal => "internal error: " ++ d.message
  | .parse | .resolution | .type => d.message

end BlockCompiler
