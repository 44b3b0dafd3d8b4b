import BlockCompiler.Lowering.Stmt

/-!
# Lowering declarations

A module under construction (`Context`) holds its functions in the order of their declaration, its
string constants and the scopes. A function is known by its number in that order, and the same list
says which function a program means by a name. A function may be declared any number of times with
the same types, and defined once; whatever a declaration did before it was refused stays.
-/

namespace BlockCompiler

/-- A module under construction. -/
structure Context where
  functions : List Function
  symbols : Symbols
  scopes : ScopeTable Binding

namespace Context

/-- The module before any declaration. -/
def empty : Context := ⟨[], {}, .empty⟩

def signatures (c : Context) : List Signature := c.functions.map Function.signature

/-- The number of the function with the given name. -/
def functionId? (c : Context) (ident : String) : Option Nat :=
  c.functions.findIdx? (·.signature.ident = ident)

def outer (c : Context) : Outer := ⟨c.signatures, c.scopes.get? .global⟩

end Context

/-- The first name that stands earlier in the list as well. -/
def firstRepeated? : List String → List String → Option String
  | _, [] => none
  | seen, x :: xs => if x ∈ seen then some x else firstRepeated? (x :: seen) xs

/-- Gives parameters their names, from left to right and one by one: a name that a later parameter
still has is not free. -/
def renameParams (names : NameTable) : List Param → List String → List Param × NameTable
  | p :: ps, wanted :: rest =>
    let (ident, names) := names.rename "" p.ident wanted
    let (renamed, names) := renameParams names ps rest
    (⟨p.ty, ident⟩ :: renamed, names)
  | ps, _ => (ps, names)

/-- The function with its parameters named as in the given head. -/
def Function.nameParams (f : Function) (head : Prototype) : Function :=
  let (params, names) := renameParams f.names f.params (head.params.map Param.ident)
  { f with params, names }

/-- A declared function: parameters that cannot be passed are left out. -/
def Function.declared (head : Prototype) (symbol : String) : Function :=
  let params := (head.params.filter (·.ty.isStorable)).map fun p ↦ ⟨p.ty, ""⟩
  Function.nameParams
    { signature := ⟨head.ident, symbol, head.params.map Param.ty, head.ret⟩
      params, slots := [], blocks := [], names := {} }
    head

namespace Lowering

/-! ## Heads -/

/-- Declares a function, unless it is declared already with the same types; yields its number. -/
def declare (head : Prototype) : Lowering Context Nat := do
  match firstRepeated? [] (head.params.map Param.ident) with
  | some ident => fail (.duplicateParam ident head.ident)
  | none =>
    let c ← state
    match c.functionId? head.ident with
    | some id =>
      let agrees := c.signatures[id]?.any fun s ↦
        s.params = head.params.map Param.ty ∧ s.ret = head.ret
      require agrees (.conflictingDeclaration head.ident)
      pure id
    | none =>
      updating fun c ↦
        let (symbol, names) := c.symbols.names.add "." head.ident
        (c.functions.length,
          { c with
            functions := c.functions ++ [Function.declared head symbol]
            symbols := { c.symbols with names } })

/-! ## Bodies -/

/-- A step within the function of the given number; a number of no function has no entry block. -/
def inFunction {α : Type} (id : Nat) (m : Outer → Lowering Frame α) : Lowering Context α := fun c ↦
  match c.functions[id]? with
  | none => (.error .noEntryBlock, c)
  | some f =>
    let (result, fr) := m c.outer ⟨f, c.scopes.get? (.function id), c.symbols⟩
    (result,
      { functions := c.functions.set id fr.function
        symbols := fr.symbols
        scopes := c.scopes.replace (.function id) fr.locals })

/-- Starts the scope of the function afresh. -/
def clearLocals : Lowering Frame Unit := update fun fr ↦ { fr with locals := fun _ ↦ none }

/-- Binds parameters to their values, each as an assignment of its own. -/
def bindParams (outer : Outer) (block : Nat) : List (String × Value) → Lowering Frame Unit
  | [] => pure ()
  | (ident, value) :: rest => do
    assign outer block ident value
    bindParams outer block rest

/-- Ends a body in the block in which control falls off it. Only a function without result may be
left like that; a dead block is never left. -/
def finish (head : Prototype) (block : Nat) : Lowering Frame Unit := do
  let fr ← state
  if fr.function.isTerminated block then pure ()
  else if fr.function.isDead block then onBlock block (emitPlain .unreachable)
  else do
    require (head.ret = .void) (.missingReturn head.ident)
    onBlock block (emitPlain (.ret none))

/-- Lowers the body of a function that has none yet. -/
def body (head : Prototype) (ss : List Stmt) (outer : Outer) : Lowering Frame Unit := do
  update fun fr ↦ { fr with function := fr.function.nameParams head }
  let entry ← appendBlock "entry"
  clearLocals
  let fr ← state
  bindParams outer entry ((head.params.map Param.ident).zip fr.function.paramValues)
  let last ← stmts outer ss entry
  finish head last
  clearLocals

/-! ## Declarations -/

def define (head : Prototype) (ss : List Stmt) : Lowering Context Unit := do
  let id ← declare head
  let c ← state
  let isDefined := c.functions[id]?.any fun f ↦ f.blocks ≠ []
  require (isDefined = false) (.alreadyDefined head.ident)
  inFunction id (body head ss)

/-- Lowers a global constant. The name is bound before the value is found to be no constant. -/
def defineConstant (ident : String) (value : Expr) : Lowering Context Unit := do
  let c ← state
  let v ← constant (c.scopes.get? .global) value
  update fun c ↦ { c with scopes := c.scopes.bind .global ident ⟨v, v.ty⟩ }
  match v with
  | .number _ => pure ()
  | _ => fail (.notConstant ident)

def decl : Decl → Lowering Context Unit
  | .function head ss => define head ss
  | .external head => do
    let _ ← declare head
    pure ()
  | .constant ident value => defineConstant ident value

end Lowering

end BlockCompiler
