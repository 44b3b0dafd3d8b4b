import BlockCompiler.Code.Listing
import BlockCompiler.Lowering.Decl
import BlockCompiler.Program.Parser
import BlockCompiler.Token.Lexer

/-!
# Compiling

Declarations are lowered as they are parsed, one after the other, and the first error ends the run.
What follows a declaration in the text has therefore no part in its lowering.
-/

namespace BlockCompiler

/-- The causes for which compiling fails. -/
inductive CompileError where
  | parse (cause : ParseError)
  | lowering (cause : LoweringError)
deriving DecidableEq

def CompileError.diagnostic : CompileError → Diagnostic
  | parse cause => cause.diagnostic
  | lowering cause => cause.diagnostic

structure Compilation where
  /-- The declarations that were about to be lowered, also the one that was refused. -/
  seen : List Decl
  /-- The error that ended the run, if any. -/
  outcome : Except CompileError Unit
  /-- The module, as far as it came. -/
  context : Context

/-- The number of declarations that were lowered without error. -/
def Compilation.lowered (r : Compilation) : Nat :=
  match r.outcome with
  | .error (.lowering _) => r.seen.length - 1
  | _ => r.seen.length

/-- Lowers the declarations of a list of tokens. -/
def compileTokens (c : Context) (ts : List Token) : Compilation :=
  match Parse.nextDeclaration? ts with
  | none => ⟨[], .ok (), c⟩
  | some (.error cause _) => ⟨[], .error (.parse cause), c⟩
  | some (.ok d rest _) =>
    match Lowering.decl d c with
    | (.error cause, c) => ⟨[d], .error (.lowering cause), c⟩
    | (.ok (), c) =>
      let r := compileTokens c rest
      { r with seen := d :: r.seen }
termination_by ts.length

def compile (source : String) : Compilation := compileTokens .empty (Token.ofSource source)

/-- Compiles a source text and has the finished module verified. What the verifier finds fault with
is an internal failure. -/
def compileVerified (verify : Context → Option String) (source : String) :
    Except Diagnostic Context :=
  let r := compile source
  match r.outcome with
  | .error cause => .error cause.diagnostic
  | .ok () =>
    match verify r.context with
    | some message => .error ⟨.internal, message⟩
    | none => .ok r.context

def Context.listings (c : Context) : List FunctionListing := c.functions.map Function.listing

end BlockCompiler
