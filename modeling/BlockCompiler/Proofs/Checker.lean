import BlockCompiler.Lowering.Decl

/-!
# A checker

A declaration can be checked without lowering it. The checker knows the declared functions and the
names of the global constants; within a body it knows the types of the locals, and whether control
comes to the place behind a statement. It builds no code and computes no value, and it refuses what
lowering refuses, for the same cause.

## Flow

Lowering looks at the code to find out whether a block is finished, and whether anything goes on to
it. The checker follows the statements instead: behind a conditional with alternative control goes
on if it does at the end of one of the branches; behind a loop, and behind a conditional without
alternative, it always does, since the condition may fail at once.
-/

namespace BlockCompiler

/-- What a checker knows of a declared function. -/
structure Declared where
  ident : String
  params : List Ty
  ret : Ty
  /-- The lowering of a body was begun, whether or not it was refused. -/
  hasBody : Bool

/-- What a checker knows between declarations. -/
structure Checker where
  functions : List Declared
  /-- The names of the global constants. -/
  constants : List String

/-- What is known of the place behind a statement. -/
inductive Flow where
  /-- Control may come here. -/
  | live
  /-- No statement leads here, and nothing was returned on the spot. -/
  | dead
  /-- The statement in front of this place returns. -/
  | ended
deriving DecidableEq

/-- The flow behind two branches. -/
def Flow.join (f g : Flow) : Flow := if f = live ∨ g = live then live else dead

namespace Checker

def empty : Checker := ⟨[], []⟩

/-- Fails for a cause unless a condition holds. -/
def ensure (cond : Prop) [Decidable cond] (e : LoweringError) : Except LoweringError Unit :=
  if cond then .ok () else .error e

/-! ## Expressions -/

/-- The function that is called by a name with a number of arguments. -/
def callee (k : Checker) (ident : String) (count : Nat) : Except LoweringError Declared :=
  match k.functions.find? (·.ident = ident) with
  | none => .error (.unknownFunction ident)
  | some f => do
    ensure (f.params.length = count) (.wrongArity ident)
    pure f

mutual

/-- The type of an expression. -/
def expr (k : Checker) (locals : Bindings Ty) : Expr → Except LoweringError Ty
  | .number _ => .ok .double
  | .text _ => .ok .string
  | .name ident =>
    match locals ident with
    | some ty => .ok ty
    | none => do
      ensure (ident ∈ k.constants) (.unknownVariable ident)
      pure .double
  | .call ident args => do
    let f ← k.callee ident args.length
    arguments k locals ident args f.params
    ensure f.ret.isStorable (.voidUsed ident)
    pure f.ret
  | .binary op lhs rhs => do
    let l ← expr k locals lhs
    let r ← expr k locals rhs
    ensure (l = r) .operandMismatch
    ensure (l = .double) (.textOperand op)
    pure .double
termination_by structural e => e

/-- Checks arguments against the types of the parameters. -/
def arguments (k : Checker) (locals : Bindings Ty) (ident : String) :
    List Expr → List Ty → Except LoweringError Unit
  | e :: es, ty :: tys => do
    let found ← expr k locals e
    ensure (found = ty) (.argumentMismatch ident)
    arguments k locals ident es tys
  | _, _ => .ok ()
termination_by structural es => es

end

/-- Checks a call whose value is dropped. -/
def call (k : Checker) (locals : Bindings Ty) (ident : String) (args : List Expr) :
    Except LoweringError Unit := do
  let f ← k.callee ident args.length
  arguments k locals ident args f.params

def condition (k : Checker) (locals : Bindings Ty) (cond : Expr) : Except LoweringError Unit := do
  let ty ← expr k locals cond
  ensure (ty = .double) (.conditionMismatch ty)

/-! ## Statements -/

/-- The types of the locals after an assignment. -/
def assign (k : Checker) (locals : Bindings Ty) (ident : String) (ty : Ty) :
    Except LoweringError (Bindings Ty) :=
  match locals ident with
  | some known => do
    ensure (known = ty) (.storeMismatch ident)
    pure locals
  | none => do
    ensure (ident ∉ k.constants) (.constantWritten ident)
    pure (locals.bind ident ty)

mutual

/-- Checks a statement of the given function; yields the types of the locals and the flow behind
it. -/
def stmt (k : Checker) (head : Prototype) (s : Stmt) (locals : Bindings Ty) (flow : Flow) :
    Except LoweringError (Bindings Ty × Flow) := do
  ensure (flow ≠ .ended) (.unreachableStmt head.ident)
  match s with
  | .assign ident value =>
    let ty ← expr k locals value
    let locals ← k.assign locals ident ty
    pure (locals, flow)
  | .ret value =>
    let ty ← expr k locals value
    ensure (ty = head.ret) (.returnMismatch head.ident)
    pure (locals, .ended)
  | .ifThen cond body =>
    k.condition locals cond
    let (locals, _) ← stmts k head body locals .live
    pure (locals, .live)
  | .ifElse cond body otherwise =>
    k.condition locals cond
    let (locals, bodyFlow) ← stmts k head body locals .live
    let (locals, otherwiseFlow) ← stmts k head otherwise locals .live
    pure (locals, bodyFlow.join otherwiseFlow)
  | .loop cond body =>
    k.condition locals cond
    let (locals, _) ← stmts k head body locals .live
    pure (locals, .live)
  | .eval (.call ident args) =>
    k.call locals ident args
    pure (locals, flow)
  | .eval value =>
    let _ ← expr k locals value
    pure (locals, flow)
termination_by structural s

def stmts (k : Checker) (head : Prototype) (ss : List Stmt) (locals : Bindings Ty) (flow : Flow) :
    Except LoweringError (Bindings Ty × Flow) :=
  match ss with
  | [] => .ok (locals, flow)
  | s :: rest => do
    let (locals, flow) ← stmt k head s locals flow
    stmts k head rest locals flow
termination_by structural ss

end

/-! ## Declarations -/

/-- The types of the locals once the parameters are bound. -/
def bindParams (k : Checker) (locals : Bindings Ty) :
    List Param → Except LoweringError (Bindings Ty)
  | [] => .ok locals
  | p :: ps => do
    let locals ← k.assign locals p.ident p.ty
    bindParams k locals ps

def body (k : Checker) (head : Prototype) (ss : List Stmt) : Except LoweringError Unit := do
  let locals ← k.bindParams (fun _ ↦ none) head.params
  let (_, flow) ← stmts k head ss locals .live
  ensure (flow = .live → head.ret = .void) (.missingReturn head.ident)

/-- The first name that stands in front of its place in the list as well. -/
def repeated? (idents : List String) : Option String :=
  (idents.zipIdx.find? fun (ident, place) ↦ ident ∈ idents.take place).map Prod.fst

/-- Declares a function, unless it is declared already with the same types; yields its number. -/
def declare (head : Prototype) : Lowering Checker Nat :=
  match repeated? (head.params.map Param.ident) with
  | some ident => Lowering.fail (.duplicateParam ident head.ident)
  | none => do
    let k ← Lowering.state
    match k.functions.findIdx? (·.ident = head.ident) with
    | some id =>
      Lowering.require (k.functions[id]?.any fun f ↦
        f.params = head.params.map Param.ty ∧ f.ret = head.ret) (.conflictingDeclaration head.ident)
      pure id
    | none =>
      Lowering.updating fun k ↦ (k.functions.length, { k with
        functions := k.functions ++ [⟨head.ident, head.params.map Param.ty, head.ret, false⟩] })

/-- The result of a check, which changes nothing. -/
def check {α : Type} (r : Checker → Except LoweringError α) : Lowering Checker α := fun k ↦ (r k, k)

/-- Notes that the body of a function was begun. -/
def beginBody (k : Checker) (id : Nat) : Checker :=
  { k with functions := k.functions.modify id fun f ↦ { f with hasBody := true } }

/-- The value of a global constant is a number or another constant. -/
def constant (k : Checker) : Expr → Except LoweringError Unit
  | .number _ => .ok ()
  | .name ident => ensure (ident ∈ k.constants) (.unknownVariable ident)
  | .text _ => .error .textOutside
  | .call _ _ => .error .callOutside
  | .binary _ _ _ => .error .operatorOutside

def decl : Decl → Lowering Checker Unit
  | .function head ss => do
    let id ← declare head
    let k ← Lowering.state
    Lowering.require (k.functions[id]?.any Declared.hasBody = false) (.alreadyDefined head.ident)
    Lowering.update fun k ↦ k.beginBody id
    check fun k ↦ k.body head ss
  | .external head => do
    let _ ← declare head
    pure ()
  | .constant ident value => do
    check fun k ↦ k.constant value
    Lowering.update fun k ↦ { k with constants := ident :: k.constants }

/-- What the declarations come to, one after the other, going on after errors. -/
def outcomes (k : Checker) : List Decl → List (Except LoweringError Unit)
  | [] => []
  | d :: ds => (decl d k).1 :: outcomes (decl d k).2 ds

end Checker

/-- What the declarations come to when they are lowered, going on after errors. -/
def Context.outcomes (c : Context) : List Decl → List (Except LoweringError Unit)
  | [] => []
  | d :: ds => (Lowering.decl d c).1 :: outcomes (Lowering.decl d c).2 ds

end BlockCompiler
