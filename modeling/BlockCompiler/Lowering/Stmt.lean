import BlockCompiler.Digest
import BlockCompiler.Lowering.Expr

/-!
# Lowering statements

Statements are lowered within one function, the `Frame`: its code, its local variables, and the
string constants of its module. Each statement starts at the end of a block and yields the block in
which control goes on.

Branches are joined in a block of their own, which is created together with them. Where control
falls off the end of a block, a jump is appended, unless nothing ever goes on to the block: it then
ends as unreachable.
-/

namespace BlockCompiler

structure Frame where
  function : Function
  locals : Bindings Binding
  symbols : Symbols

/-- What lowering sees of the module outside of the function. -/
structure Outer where
  signatures : List Signature
  globals : Bindings Binding

/-- The surroundings of an expression within the function. -/
def Frame.env (fr : Frame) (outer : Outer) : Env where
  signatures := outer.signatures
  globals := outer.globals
  locals := fr.locals

/-- The blocks that a statement creates. -/
inductive Role where
  | ifTrue
  | ifFalse
  | ifAfter
  | whileTest
  | whileLoop
  | whileAfter
deriving DecidableEq, Repr

def Role.text : Role → String
  | ifTrue => "if-true-block"
  | ifFalse => "if-false-block"
  | ifAfter => "if-after-block"
  | whileTest => "while-test"
  | whileLoop => "while-loop"
  | whileAfter => "while-after"

namespace Lowering

/-! ## Blocks -/

/-- A step at the end of a block. -/
def onBlock {α : Type} (block : Nat) (m : Lowering Tape α) : Lowering Frame α := fun fr ↦
  let (result, tape) := m ⟨fr.function.code block, fr.symbols⟩
  (result, { fr with
    function := fr.function.setCode block tape.code
    symbols := tape.symbols })

/-- A step at the end of a block that needs its surroundings. -/
def within {α : Type} (outer : Outer) (block : Nat) (m : Env → Lowering Tape α) :
    Lowering Frame α := do
  let fr ← state
  onBlock block (m (fr.env outer))

/-- Appends an empty block under a free name. -/
def appendBlock (wanted : String) : Lowering Frame Nat :=
  updating fun fr ↦
    let (name, names) := fr.function.names.add "" wanted
    (fr.function.blocks.length,
      { fr with
        function := { fr.function with
          blocks := fr.function.blocks ++ [⟨name, []⟩]
          names } })

/-- Appends a block that is named after its role and after the block that it belongs to. -/
def childBlock (parent : Nat) (role : Role) : Lowering Frame Nat := do
  let fr ← state
  let digest := Digest.short (fr.function.blockName parent ++ role.text)
  appendBlock (role.text ++ "_" ++ digest)

/-- Ends a block with a jump, or as unreachable if it is dead. A finished block stays as it is. -/
def close (block target : Nat) : Lowering Frame Unit := do
  let fr ← state
  if fr.function.isTerminated block then pure ()
  else if fr.function.isDead block then onBlock block (emitPlain .unreachable)
  else onBlock block (emitPlain (.jump target))

/-! ## Variables -/

def newSlot (ty : Ty) (ident : String) : Lowering Frame Value := do
  require ty.isStorable (.notStorable ty ident)
  let fr ← state
  require (fr.function.blocks ≠ []) .noEntryBlock
  updating fun fr ↦
    (.slot fr.function.slots.length ty,
      { fr with function := { fr.function with slots := fr.function.slots ++ [⟨ident, ty⟩] } })

/-- Stores a value in a variable of the same type. -/
def store (block : Nat) (ident : String) (value : Value) (b : Binding) : Lowering Frame Unit := do
  let slot ← address ident b
  require (b.ty = value.ty) (.storeMismatch ident)
  onBlock block (emitPlain (.store value slot))

/-- Gives a local variable a value. The first assignment declares it, with the type of the value;
a name that is a global constant cannot be assigned. -/
def assign (outer : Outer) (block : Nat) (ident : String) (value : Value) :
    Lowering Frame Unit := do
  let fr ← state
  match fr.locals ident with
  | some b => store block ident value b
  | none =>
    require (outer.globals ident).isNone (.constantWritten ident)
    let slot ← newSlot value.ty ident
    update fun fr ↦ { fr with locals := fr.locals.bind ident ⟨slot, value.ty⟩ }
    store block ident value ⟨slot, value.ty⟩

/-! ## Statements -/

/-- Returns a value, which has to be of the declared type. The declaration is the one under the name
by which the module knows the function. -/
def returnValue (outer : Outer) (block : Nat) (value : Value) : Lowering Frame Unit := do
  let fr ← state
  let symbol := fr.function.signature.symbol
  let declared := (outer.signatures.find? (·.ident = symbol)).map Signature.ret
  require (declared = some value.ty) (.returnMismatch symbol)
  onBlock block (emitPlain (.ret (some value)))

/-- Fails if the block is finished. -/
def requireOpen (block : Nat) : Lowering Frame Unit := do
  let fr ← state
  require (fr.function.isTerminated block = false) (.unreachableStmt fr.function.signature.symbol)

mutual

/-- Lowers a statement at the end of a block, and yields the block in which control goes on. -/
def stmt (outer : Outer) (s : Stmt) (block : Nat) : Lowering Frame Nat := do
  requireOpen block
  match s with
  | .assign ident value =>
    let v ← within outer block fun env ↦ expr env value
    assign outer block ident v
    pure block
  | .ret value =>
    let v ← within outer block fun env ↦ expr env value
    returnValue outer block v
    pure block
  | .ifThen cond body =>
    let c ← within outer block fun env ↦ condition env cond
    let ifTrue ← childBlock block .ifTrue
    let after ← childBlock block .ifAfter
    onBlock block (emitPlain (.branch c ifTrue after))
    let ifTrueEnd ← stmts outer body ifTrue
    close ifTrueEnd after
    pure after
  | .ifElse cond body otherwise =>
    let c ← within outer block fun env ↦ condition env cond
    let ifTrue ← childBlock block .ifTrue
    let ifFalse ← childBlock block .ifFalse
    let after ← childBlock block .ifAfter
    onBlock block (emitPlain (.branch c ifTrue ifFalse))
    let ifTrueEnd ← stmts outer body ifTrue
    close ifTrueEnd after
    let ifFalseEnd ← stmts outer otherwise ifFalse
    close ifFalseEnd after
    pure after
  | .loop cond body =>
    let test ← childBlock block .whileTest
    let loop ← childBlock block .whileLoop
    let after ← childBlock block .whileAfter
    onBlock block (emitPlain (.jump test))
    let c ← within outer test fun env ↦ condition env cond
    onBlock test (emitPlain (.branch c loop after))
    let loopEnd ← stmts outer body loop
    close loopEnd test
    pure after
  | .eval (.call ident args) =>
    let _ ← within outer block fun env ↦ call env ident args
    pure block
  | .eval value =>
    let _ ← within outer block fun env ↦ expr env value
    pure block
termination_by structural s

def stmts (outer : Outer) (ss : List Stmt) (block : Nat) : Lowering Frame Nat :=
  match ss with
  | [] => pure block
  | s :: rest => do
    let next ← stmt outer s block
    stmts outer rest next
termination_by structural ss

end

end Lowering

end BlockCompiler
