import BlockCompiler.Code
import BlockCompiler.Decimal.Text

/-!
# Listings

A listing shows a function as text fields, one line per instruction. Here an instruction is referred
to by its number in the whole function, slots included: they stand at the head of the entry block,
the latest one first.
-/

namespace BlockCompiler

/-- An instruction as text: its opcode, the words that belong to it, its operands, and the name of
its result. -/
structure Line where
  opcode : String
  words : List String
  operands : List String
  name : String
deriving DecidableEq, Repr

structure BlockListing where
  name : String
  lines : List Line
deriving DecidableEq, Repr

structure FunctionListing where
  symbol : String
  ret : Ty
  params : List Param
  blocks : List BlockListing
deriving DecidableEq, Repr

/-- Numbers in listings can be told from whole numbers. -/
def numberText (x : Float) : String := Decimal.markedLayout.write x

/-- The text of an operand; `slots` is the number of slots, and `start` the number of the first
instruction of the block. -/
def Value.listed (slots start : Nat) : Value → String
  | number x => numberText x
  | bit b => if b then "true" else "false"
  | text index => "@" ++ toString index
  | param index _ => "$" ++ toString index
  | slot index _ => "%" ++ toString (slots - 1 - index)
  | temp index _ => "%" ++ toString (start + index)

def Arith.opcode : Arith → String
  | add => "fadd"
  | sub => "fsub"
  | mul => "fmul"

/-- The name given to the result of an arithmetic operation. -/
def Arith.resultName : Arith → String
  | add => "addtmp"
  | sub => "subtmp"
  | mul => "multmp"

def Comparison.word : Comparison → String
  | less => "olt"
  | greater => "ogt"
  | equal => "oeq"
  | notEqual => "one"

def Instr.listed (f : Function) (start : Nat) (i : Instr) : Line :=
  let operand := Value.listed f.slots.length start
  match i with
  | load address ident => ⟨"load", [], [operand address], ident⟩
  | store value address => ⟨"store", [], [operand value, operand address], ""⟩
  | arith op lhs rhs => ⟨op.opcode, [], [operand lhs, operand rhs], op.resultName⟩
  | compare relation lhs rhs => ⟨"fcmp", [relation.word], [operand lhs, operand rhs], "cmptmp"⟩
  | test value => ⟨"fcmp", ["ogt"], [operand value, numberText 0], "cond"⟩
  | promote value => ⟨"uitofp", [], [operand value], "booltmp"⟩
  | call symbol result args =>
    ⟨"call", [symbol], args.map operand, if result = .void then "" else "calltmp"⟩
  | ret value => ⟨"ret", [], value.toList.map operand, ""⟩
  | jump target => ⟨"br", [f.blockName target], [], ""⟩
  | branch cond ifTrue ifFalse =>
    ⟨"condbr", [f.blockName ifTrue, f.blockName ifFalse], [operand cond], ""⟩
  | unreachable => ⟨"unreachable", [], [], ""⟩

/-- The line that sets up a slot. -/
def Slot.listed (s : Slot) : Line := ⟨"alloca", [s.ty.text], [], s.ident⟩

/-- The lines of blocks, of which the first one starts with instruction `start`. -/
def Function.listedBlocks (f : Function) : Nat → List Block → List BlockListing
  | _, [] => []
  | start, b :: rest =>
    ⟨b.name, b.code.map (Instr.listed f start)⟩ ::
      f.listedBlocks (start + b.code.length) rest

/-- The listing of a function. A result that cannot be passed is shown as none. -/
def Function.listing (f : Function) : FunctionListing where
  symbol := f.signature.symbol
  ret := if f.signature.ret.isStorable then f.signature.ret else .void
  params := f.params
  blocks :=
    match f.listedBlocks f.slots.length f.blocks with
    | [] => []
    | entry :: rest =>
      { entry with lines := f.slots.reverse.map Slot.listed ++ entry.lines } :: rest

end BlockCompiler
