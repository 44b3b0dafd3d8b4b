import BlockCompiler.Program
import BlockCompiler.Program.ParseError

/-!
# Parsing

Recursive descent over the list of tokens with one token of lookahead; operators are resolved by
precedence climbing. Every function takes the tokens that are left, and its outcome holds those left
after it, also where it fails: a parse can go on behind an error.

A successful step leaves fewer tokens than a given bound. That bound is part of the outcome, and it
is what makes the recursion end.
-/

namespace BlockCompiler

/-- What a parsing step yields, together with the tokens left: a value, with fewer than `bound`
tokens left, or the cause of failure. -/
inductive Outcome (α : Type) (bound : Nat) where
  | ok (value : α) (rest : List Token) (shorter : rest.length < bound)
  | error (cause : ParseError) (rest : List Token)

namespace Outcome

variable {α β : Type} {m n : Nat}

/-- Goes on with the value and the tokens left. -/
def andThen (o : Outcome α n) (f : α → (rest : List Token) → rest.length < n → Outcome β m) :
    Outcome β m :=
  match o with
  | ok value rest shorter => f value rest shorter
  | error cause rest => error cause rest

def map (f : α → β) (o : Outcome α n) : Outcome β n :=
  match o with
  | ok value rest shorter => ok (f value) rest shorter
  | error cause rest => error cause rest

/-- The same outcome under a weaker bound. -/
def widen (o : Outcome α n) (h : n ≤ m) : Outcome α m :=
  match o with
  | ok value rest shorter => ok value rest (Nat.lt_of_lt_of_le shorter h)
  | error cause rest => error cause rest

def rest : Outcome α n → List Token
  | ok _ rest _ => rest
  | error _ rest => rest

/-- The value or the cause of failure, without the tokens left. -/
def result : Outcome α n → Except ParseError α
  | ok value _ _ => .ok value
  | error cause _ => .error cause

end Outcome

namespace Parse

/-! ## Single tokens -/

/-- Takes the given token, or fails in front of what stands there. -/
def expect (f : Fixed) (cause : ParseError) (ts : List Token) : Outcome Unit ts.length :=
  match ts with
  | .fixed g :: rest => if g = f then .ok () rest (Nat.lt_add_one _) else .error cause ts
  | _ => .error cause ts

/-- Takes a name, or fails in front of what stands there. -/
def expectName (cause : ParseError) (ts : List Token) : Outcome String ts.length :=
  match ts with
  | .name ident :: rest => .ok ident rest (Nat.lt_add_one _)
  | _ => .error cause ts

/-- Takes a semicolon if there is one. -/
def skipSemi : List Token → List Token
  | .mark .semi :: rest => rest
  | ts => ts

/-- Takes all semicolons up to the next token. -/
def skipSemis : List Token → List Token
  | .mark .semi :: rest => skipSemis rest
  | ts => ts

theorem length_skipSemi_le (ts : List Token) : (skipSemi ts).length ≤ ts.length := by
  unfold skipSemi
  split <;> simp

theorem length_skipSemis_le (ts : List Token) : (skipSemis ts).length ≤ ts.length := by
  fun_induction skipSemis ts with
  | case1 rest ih => simp only [List.length_cons]; omega
  | case2 => exact Nat.le_refl _

/-! ## Expressions -/

/-- Takes a number or a string literal. -/
def literal (ts : List Token) : Outcome Expr ts.length :=
  match ts with
  | .number value :: rest => .ok (.number value) rest (Nat.lt_add_one _)
  | .text contents :: rest => .ok (.text contents) rest (Nat.lt_add_one _)
  | found :: rest => .error (.unknownLiteral (some found)) rest
  | [] => .error (.unknownLiteral none) []

mutual

/-- An expression: primaries with operators between them. -/
def expr (ts : List Token) : Outcome Expr ts.length :=
  (primary ts).andThen fun lhs rest _ ↦ (operators 0 lhs rest).widen (by omega)
termination_by 4 * ts.length + 2

/-- A literal, a name, a call or an expression in parentheses. -/
def primary (ts : List Token) : Outcome Expr ts.length :=
  match ts.head? with
  | some (.number _) | some (.text _) => literal ts
  | some (.name _) => nameOrCall ts
  | some (.mark .openParen) => parenthesised ts
  | found => .error (.unknownPrimary found) ts
termination_by 4 * ts.length + 1

/-- Folds `lhs` with the operators that follow and bind at least as tight as `least`. An operand is
first folded with the operators behind it that bind tighter than its own. -/
def operators (least : Nat) (lhs : Expr) (ts : List Token) : Outcome Expr (ts.length + 1) :=
  match ts with
  | .operator op :: rest =>
    if least ≤ op.precedence then
      (primary rest).andThen fun operand rest₁ _ ↦
        (operators (op.precedence + 1) operand rest₁).andThen fun rhs rest₂ _ ↦
          (operators least (.binary op lhs rhs) rest₂).widen (by grind)
    else .ok lhs (.operator op :: rest) (by grind)
  | rest => .ok lhs rest (by grind)
termination_by 4 * ts.length

/-- A name, or a call if a parenthesis follows. -/
def nameOrCall (ts : List Token) : Outcome Expr ts.length :=
  (expectName .expectedName ts).andThen fun ident rest _ ↦
    match rest with
    | .mark .openParen :: .mark .closeParen :: rest => .ok (.call ident []) rest (by grind)
    | .mark .openParen :: rest => ((arguments rest).map (.call ident)).widen (by grind)
    | rest => .ok (.name ident) rest (by grind)
termination_by 4 * ts.length
decreasing_by grind

/-- The arguments of a call, up to and with the closing parenthesis. -/
def arguments (ts : List Token) : Outcome (List Expr) ts.length :=
  (expr ts).andThen fun arg rest _ ↦
    match rest with
    | .mark .closeParen :: rest => .ok [arg] rest (by grind)
    | .mark .comma :: rest => ((arguments rest).map (arg :: ·)).widen (by grind)
    | rest => .error .expectedArgSeparator rest
termination_by 4 * ts.length + 3
decreasing_by all_goals grind

def parenthesised (ts : List Token) : Outcome Expr ts.length :=
  (expect (.mark .openParen) .expectedOpenParen ts).andThen fun _ rest _ ↦
    (expr rest).andThen fun inner rest _ ↦
      (expect (.mark .closeParen) .expectedCloseParen rest).andThen fun _ rest _ ↦
        .ok inner rest (by omega)
termination_by 4 * ts.length

end

/-! ## Statements -/

/-- An assignment without a semicolon: a keyword, which is taken unseen, a name and a value. -/
def assignment (ts : List Token) : Outcome (String × Expr) ts.length :=
  (expectName .expectedAssignedName ts.tail).andThen fun ident rest _ ↦
    (expect (.operator .equal) .expectedAssignedValue rest).andThen fun _ rest _ ↦
      ((expr rest).map (ident, ·)).widen (by grind)

/-- A return without a semicolon. -/
def returned (ts : List Token) : Outcome Stmt ts.length :=
  (expect (.keyword .returnKw) .expectedReturn ts).andThen fun _ rest _ ↦
    ((expr rest).map .ret).widen (by omega)

/-- A statement that ends in a semicolon, without it. -/
def simpleStmt (ts : List Token) : Outcome Stmt ts.length :=
  match ts.head? with
  | some (.keyword .setKw) | some (.keyword .constKw) =>
    (assignment ts).map fun (ident, value) ↦ .assign ident value
  | some (.keyword .returnKw) => returned ts
  | _ => (expr ts).map .eval

mutual

/-- A statement. Behind `if` and `while` the semicolon may be left out. -/
def stmt (ts : List Token) : Outcome Stmt ts.length :=
  match ts.head? with
  | some (.keyword .ifKw) =>
    (ifStmt ts).andThen fun s rest _ ↦ .ok s (skipSemi rest) (by grind [length_skipSemi_le])
  | some (.keyword .whileKw) =>
    (whileStmt ts).andThen fun s rest _ ↦ .ok s (skipSemi rest) (by grind [length_skipSemi_le])
  | _ =>
    (simpleStmt ts).andThen fun s rest _ ↦
      ((expect (.mark .semi) .expectedSemiAfterStatement rest).map fun _ ↦ s).widen (by omega)
termination_by 4 * ts.length + 1

/-- A conditional, with or without an alternative. -/
def ifStmt (ts : List Token) : Outcome Stmt ts.length :=
  (expect (.keyword .ifKw) .expectedIf ts).andThen fun _ rest _ ↦
    (expr rest).andThen fun cond rest _ ↦
      (block rest).andThen fun body rest _ ↦
        match rest with
        | .keyword .elseKw :: rest => ((block rest).map (.ifElse cond body)).widen (by grind)
        | rest => .ok (.ifThen cond body) rest (by grind)
termination_by 4 * ts.length
decreasing_by all_goals grind

def whileStmt (ts : List Token) : Outcome Stmt ts.length :=
  (expect (.keyword .whileKw) .expectedWhile ts).andThen fun _ rest _ ↦
    (expr rest).andThen fun cond rest _ ↦
      ((block rest).map (.loop cond)).widen (by omega)
termination_by 4 * ts.length

/-- A block: statements in braces, at least one. -/
def block (ts : List Token) : Outcome (List Stmt) ts.length :=
  (expect (.mark .openBrace) .expectedBlock ts).andThen fun _ rest _ ↦
    (stmts rest).widen (by omega)
termination_by 4 * ts.length

/-- The statements of a block, up to and with the closing brace. -/
def stmts (ts : List Token) : Outcome (List Stmt) ts.length :=
  (stmt ts).andThen fun s rest _ ↦
    match rest with
    | .mark .closeBrace :: rest => .ok [s] rest (by grind)
    | rest => ((stmts rest).map (s :: ·)).widen (by grind)
termination_by 4 * ts.length + 2
decreasing_by all_goals grind

end

/-! ## Declarations -/

def returnType (ts : List Token) : Outcome Ty ts.length :=
  match ts with
  | .ty t :: rest => .ok t.toTy rest (Nat.lt_add_one _)
  | _ => .error .expectedReturnType ts

/-- A parameter; `void` is no type for one. -/
def param (ts : List Token) : Outcome Param ts.length :=
  match ts with
  | .ty .double :: rest =>
    ((expectName .expectedParamName rest).map (⟨.double, ·⟩)).widen (by grind)
  | .ty .string :: rest =>
    ((expectName .expectedParamName rest).map (⟨.string, ·⟩)).widen (by grind)
  | _ => .error .expectedParamType ts

/-- Parameters, at least one, up to and with the closing parenthesis. -/
def params (ts : List Token) : Outcome (List Param) ts.length :=
  (param ts).andThen fun p rest _ ↦
    match rest with
    | .mark .closeParen :: rest => .ok [p] rest (by grind)
    | .mark .comma :: rest => ((params rest).map (p :: ·)).widen (by grind)
    | rest => .error .expectedParamSeparator rest
termination_by ts.length
decreasing_by grind

def prototype (ts : List Token) : Outcome Prototype ts.length :=
  (returnType ts).andThen fun ret rest _ ↦
    (expectName .expectedFunctionName rest).andThen fun ident rest _ ↦
      (expect (.mark .openParen) .expectedParams rest).andThen fun _ rest _ ↦
        match rest with
        | .mark .closeParen :: rest => .ok ⟨ret, ident, []⟩ rest (by grind)
        | rest => ((params rest).map (⟨ret, ident, ·⟩)).widen (by grind)

def functionDecl (ts : List Token) : Outcome Decl ts.length :=
  (expect (.keyword .defKw) .expectedDef ts).andThen fun _ rest _ ↦
    (prototype rest).andThen fun head rest _ ↦
      ((block rest).map (.function head)).widen (by omega)

/-- A function without body. -/
def externalDecl (ts : List Token) : Outcome Decl ts.length :=
  (expect (.keyword .externKw) .expectedExtern ts).andThen fun _ rest _ ↦
    (prototype rest).andThen fun head rest _ ↦
      ((expect (.mark .semi) .expectedSemiAfterExtern rest).map fun _ ↦ .external head).widen
        (by omega)

/-- A global constant; the semicolon may be left out. -/
def constantDecl (ts : List Token) : Outcome Decl ts.length :=
  (assignment ts).andThen fun (ident, value) rest _ ↦
    .ok (.constant ident value) (skipSemi rest) (by grind [length_skipSemi_le])

/-- A declaration that starts at the first token. -/
def declaration (t : Token) (ts : List Token) : Outcome Decl (ts.length + 1) :=
  match t with
  | .keyword .defKw => functionDecl (t :: ts)
  | .keyword .externKw => externalDecl (t :: ts)
  | .keyword .constKw => constantDecl (t :: ts)
  | found => .error (.unknownTopLevel found) (t :: ts)

/-- The next declaration behind any semicolons; none at the end of the source. -/
def nextDeclaration? (ts : List Token) : Option (Outcome Decl ts.length) :=
  match skipSemis ts, length_skipSemis_le ts with
  | [], _ => none
  | t :: rest, h => some ((declaration t rest).widen h)

/-- All declarations that are left. -/
def program (ts : List Token) : Outcome (List Decl) (ts.length + 1) :=
  match nextDeclaration? ts with
  | none => .ok [] [] (by simp)
  | some (.error cause rest) => .error cause rest
  | some (.ok decl rest _) => ((program rest).map (decl :: ·)).widen (by omega)
termination_by ts.length

end Parse

end BlockCompiler
