import BlockCompiler.Code
import BlockCompiler.Lowering.Basic
import BlockCompiler.ScopeTable

/-!
# Lowering expressions

An expression is lowered at the end of one block. It sees the declared functions and the bindings of
names, and it touches two things only: the instructions of that block, which it extends, and the
string constants of the module. These two are the `Tape`.

Operations on number constants are carried out at once and leave no instruction. An operator or a
call whose operands are refused takes its instructions back; the string constants stay.
-/

namespace BlockCompiler

/-- What a name is bound to: a constant for a global, the address of its slot for a local. The type
is that of the variable. -/
structure Binding where
  value : Value
  ty : Ty
deriving DecidableEq

/-- What lowering sees of its surroundings. -/
structure Env where
  signatures : List Signature
  globals : Bindings Binding
  locals : Bindings Binding

def Env.callee? (env : Env) (ident : String) : Option Signature :=
  env.signatures.find? (·.ident = ident)

/-- What an expression is lowered to: the end of a block, and string constants. -/
structure Tape where
  code : List Instr
  symbols : Symbols
deriving DecidableEq

namespace Lowering

/-! ## Instructions -/

/-- Appends an instruction whose result has the given kind. -/
def emit (i : Instr) (kind : Kind) : Lowering Tape Value := fun t ↦
  (.ok (.temp t.code.length kind), { t with code := t.code ++ [i] })

/-- Appends an instruction without result. -/
def emitPlain (i : Instr) : Lowering Tape Unit :=
  update fun t ↦ { t with code := t.code ++ [i] }

/-- The place of the last instruction; an empty block has none. -/
def mark (code : List Instr) : Option Nat :=
  match code.length with
  | 0 => none
  | n + 1 => some n

/-- Erases instructions, which are given from the last one to the first, up to the marked one. -/
def eraseUntil (marked : Option Nat) : List Instr → List Instr
  | [] => []
  | i :: before => if marked = some before.length then i :: before else eraseUntil marked before

/-- Erases instructions from the end until the marked one is the last. -/
def truncate (marked : Option Nat) (code : List Instr) : List Instr :=
  (eraseUntil marked code.reverse).reverse

/-- A step that takes the instructions it appended back if it fails. -/
def rewinding {α : Type} (m : Lowering Tape α) : Lowering Tape α := fun t ↦
  match m t with
  | (.ok a, t') => (.ok a, t')
  | (.error e, t') => (.error e, { t' with code := truncate (mark t.code) t'.code })

def text (contents : String) : Lowering Tape Value :=
  updating fun t ↦
    let (index, symbols) := t.symbols.addText contents
    (.text index, { t with symbols })

def arith (op : Arith) : Value → Value → Lowering Tape Value
  | .number x, .number y => pure (.number (op.apply x y))
  | lhs, rhs => emit (.arith op lhs rhs) .double

def compare (relation : Comparison) : Value → Value → Lowering Tape Value
  | .number x, .number y => pure (.bit (relation.holds x y))
  | lhs, rhs => emit (.compare relation lhs rhs) .bit

/-- The test of a number for being greater than zero. -/
def test : Value → Lowering Tape Value
  | .number x => pure (.bit (Comparison.greater.holds x 0))
  | v => emit (.test v) .bit

/-- The number that stands for a bit. -/
def promote : Value → Lowering Tape Value
  | .bit b => pure (.number (if b then 1 else 0))
  | v => emit (.promote v) .double

/-- An operator applied to two numbers. A comparison yields one or zero. -/
def operate (op : Operator) (lhs rhs : Value) : Lowering Tape Value :=
  match op with
  | .add => arith .add lhs rhs
  | .sub => arith .sub lhs rhs
  | .mul => arith .mul lhs rhs
  | .less => do promote (← compare .less lhs rhs)
  | .greater => do promote (← compare .greater lhs rhs)
  | .equal => do promote (← compare .equal lhs rhs)
  | .notEqual => do promote (← compare .notEqual lhs rhs)

/-- An operator applied to two values, which have to be numbers. -/
def combine (op : Operator) (lhs rhs : Value) : Lowering Tape Value :=
  if lhs.kind = .double ∧ rhs.kind = .double then operate op lhs rhs
  else if lhs.ty ≠ rhs.ty then fail .operandMismatch
  else if lhs.ty = .string then fail (.textOperand op)
  else fail .operandUnknown

/-! ## Names -/

/-- The address that a variable is bound to. -/
def address {σ : Type} (ident : String) (b : Binding) : Lowering σ Value := do
  require (b.value.kind = .pointer) (.notWritable ident)
  pure b.value

/-- The value of a name. A local is read from its slot, a global is its value. -/
def readName (env : Env) (ident : String) : Lowering Tape Value :=
  match env.locals ident with
  | some b => do
    let slot ← address ident b
    require b.ty.isStorable (.noStorageType ident)
    emit (.load slot ident) slot.pointee
  | none =>
    match env.globals ident with
    | some b => pure b.value
    | none => fail (.unknownVariable ident)

/-! ## Expressions -/

/-- A call with `count` arguments, which `args` lowers against the types of the parameters. There is
no value if the function returns none. -/
def callWith (env : Env) (ident : String) (count : Nat)
    (args : List Ty → Lowering Tape (List Value)) : Lowering Tape (Option Value) :=
  match env.callee? ident with
  | none => fail (.unknownFunction ident)
  | some callee => do
    require (callee.params.length = count) (.wrongArity ident)
    let values ← rewinding (args callee.params)
    let result ← emit (.call callee.symbol callee.ret values) callee.ret.kind
    pure (if callee.ret.isStorable then some result else none)

mutual

def expr (env : Env) : Expr → Lowering Tape Value
  | .number x => pure (.number x)
  | .text contents => text contents
  | .name ident => readName env ident
  | .call ident args => do
    match ← callWith env ident args.length fun tys ↦ arguments env ident args tys with
    | some value => pure value
    | none => fail (.voidUsed ident)
  | .binary op lhs rhs => rewinding do
    let l ← expr env lhs
    let r ← expr env rhs
    combine op l r
termination_by structural e => e

/-- Lowers the arguments of a call, each of which has to be of the type that stands for it. -/
def arguments (env : Env) (ident : String) : List Expr → List Ty → Lowering Tape (List Value)
  | e :: es, ty :: tys => do
    let value ← expr env e
    require (value.ty = ty) (.argumentMismatch ident)
    let values ← arguments env ident es tys
    pure (value :: values)
  | _, _ => pure []
termination_by structural es => es

end

/-- Lowers a call whose value is dropped, if there is one. -/
def call (env : Env) (ident : String) (args : List Expr) : Lowering Tape (Option Value) :=
  callWith env ident args.length fun tys ↦ arguments env ident args tys

/-- Lowers a condition to a bit. -/
def condition (env : Env) (cond : Expr) : Lowering Tape Value := do
  let value ← expr env cond
  require (value.kind = .double) (.conditionMismatch value.ty)
  test value

/-- The value of an expression outside of all functions: a number or another constant. -/
def constant (globals : Bindings Binding) {σ : Type} : Expr → Lowering σ Value
  | .number x => pure (.number x)
  | .name ident =>
    match globals ident with
    | some b => pure b.value
    | none => fail (.unknownVariable ident)
  | .text _ => fail .textOutside
  | .call _ _ => fail .callOutside
  | .binary _ _ _ => fail .operatorOutside

end Lowering

end BlockCompiler
