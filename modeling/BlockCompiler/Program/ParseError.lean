import BlockCompiler.Diagnostic
import BlockCompiler.Token

/-!
# Violations of the grammar

Each cause stands for one place of the grammar where a token does not fit. The first three show what
stands there instead.
-/

namespace BlockCompiler

/-- The causes for which parsing fails. -/
inductive ParseError where
  | unknownTopLevel (found : Token)
  | unknownPrimary (found : Option Token)
  | unknownLiteral (found : Option Token)
  | expectedDef
  | expectedExtern
  | expectedSemiAfterExtern
  | expectedReturnType
  | expectedFunctionName
  | expectedParams
  | expectedParamSeparator
  | expectedParamType
  | expectedParamName
  | expectedBlock
  | expectedSemiAfterStatement
  | expectedAssignedName
  | expectedAssignedValue
  | expectedReturn
  | expectedIf
  | expectedWhile
  | expectedName
  | expectedArgSeparator
  | expectedOpenParen
  | expectedCloseParen
deriving DecidableEq

namespace ParseError

def message : ParseError → String
  | unknownTopLevel found => "unknown token when parsing top level: " ++ found.spelling
  | unknownPrimary found => "unknown token when parsing primary: " ++ Token.describe found
  | unknownLiteral found => "unknown token when parsing literal: " ++ Token.describe found
  | expectedDef => "expected def"
  | expectedExtern => "expected extern"
  | expectedSemiAfterExtern => "expected ; after extern statement"
  | expectedReturnType => "expected function return type before name"
  | expectedFunctionName => "invalid identifier for function definition"
  | expectedParams => "expected ( for function definition"
  | expectedParamSeparator => "expected , or ) in function prototype"
  | expectedParamType => "expected type for function parameter"
  | expectedParamName => "invalid identifier for function parameter"
  | expectedBlock => "expected \x7b for statement block"
  | expectedSemiAfterStatement => "expected ; at end of statement"
  | expectedAssignedName => "expected identifier after set"
  | expectedAssignedValue => "expected = in set statement"
  | expectedReturn => "expected return"
  | expectedIf => "expected if"
  | expectedWhile => "expected while"
  | expectedName => "expected identifier"
  | expectedArgSeparator => "expected , or ) in function call"
  | expectedOpenParen => "expected ("
  | expectedCloseParen => "expected closing ) for expression"

def diagnostic (e : ParseError) : Diagnostic := ⟨.parse, e.message⟩

end ParseError

end BlockCompiler
