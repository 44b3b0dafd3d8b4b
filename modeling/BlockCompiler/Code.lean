import BlockCompiler.Vocabulary
import BlockCompiler.NameTable
import BlockCompiler.Program

/-!
# Code in basic blocks

A function is a list of blocks, the first of which is its entry. A block is a list of instructions;
it is finished once its last instruction is a terminator. Local variables live in slots, which are
set up at the head of the entry block and are therefore kept apart from its instructions.

No value leaves the block in which it is computed: an operand refers to an instruction by its place
in the same block, and to everything else by its number.
-/

namespace BlockCompiler

/-! ## Values -/

inductive Kind where
  | double
  /-- The address of a string or of a slot. -/
  | pointer
  /-- The result of a comparison. -/
  | bit
  /-- A single byte of a string. -/
  | byte
deriving DecidableEq, Repr

/-- The type of the language whose values have this kind. -/
def Kind.toTy : Kind → Ty
  | double => .double
  | pointer => .string
  | bit | byte => .invalid

/-- The kind of the values of a type that can be stored. -/
def Ty.kind : Ty → Kind
  | .string => .pointer
  | _ => .double

inductive Value where
  | number (x : Float)
  | bit (b : Bool)
  /-- A string constant of the module. -/
  | text (index : Nat)
  | param (index : Nat) (kind : Kind)
  /-- The address of a slot for a value of the given type. -/
  | slot (index : Nat) (ty : Ty)
  /-- The result of an instruction of the same block. -/
  | temp (index : Nat) (kind : Kind)
deriving DecidableEq

namespace Value

def kind : Value → Kind
  | number _ => .double
  | bit _ => .bit
  | text _ | slot _ _ => .pointer
  | param _ kind | temp _ kind => kind

/-- The type of the language that a value belongs to. -/
def ty (v : Value) : Ty := v.kind.toTy

/-- The kind of what stands at an address: the value of a slot, or the first byte of a string. -/
def pointee : Value → Kind
  | slot _ ty => ty.kind
  | _ => .byte

end Value

/-! ## Instructions -/

inductive Arith where
  | add
  | sub
  | mul
deriving DecidableEq, Repr

def Arith.apply : Arith → Float → Float → Float
  | add, x, y => x + y
  | sub, x, y => x - y
  | mul, x, y => x * y

/-- The ordered comparisons. -/
inductive Comparison where
  | less
  | greater
  | equal
  | notEqual
deriving DecidableEq, Repr

/-- A comparison holds. None does if one side is not a number. -/
def Comparison.holds : Comparison → Float → Float → Bool
  | less, x, y => x < y
  | greater, x, y => y < x
  | equal, x, y => x == y
  | notEqual, x, y => x < y || y < x

/-- The instructions. Blocks are given by their number in the function. -/
inductive Instr where
  /-- Reads the variable at an address. -/
  | load (address : Value) (ident : String)
  | store (value address : Value)
  | arith (op : Arith) (lhs rhs : Value)
  | compare (relation : Comparison) (lhs rhs : Value)
  /-- Tests a number for being greater than zero. -/
  | test (value : Value)
  /-- Turns a bit into one or zero. -/
  | promote (value : Value)
  | call (symbol : String) (ret : Ty) (args : List Value)
  | ret (value : Option Value)
  | jump (target : Nat)
  | branch (cond : Value) (ifTrue ifFalse : Nat)
  | unreachable
deriving DecidableEq

namespace Instr

/-- The instruction ends a block. -/
def isTerminator : Instr → Bool
  | ret _ | jump _ | branch _ _ _ | unreachable => true
  | load _ _ | store _ _ | arith _ _ _ | compare _ _ _ | test _ | promote _ | call _ _ _ => false

/-- The blocks to which an instruction may go on. -/
def targets : Instr → List Nat
  | jump target => [target]
  | branch _ ifTrue ifFalse => [ifTrue, ifFalse]
  | _ => []

end Instr

/-! ## Functions -/

structure Block where
  name : String
  code : List Instr
deriving DecidableEq

/-- The last instruction of the block is a terminator. -/
def Block.isTerminated (b : Block) : Bool := b.code.getLast?.any Instr.isTerminator

/-- The storage of a local variable. -/
structure Slot where
  ident : String
  ty : Ty
deriving DecidableEq

/-- What is declared about a function, and the name under which the module knows it. -/
structure Signature where
  ident : String
  symbol : String
  params : List Ty
  ret : Ty
deriving DecidableEq

/-- A function of a module. A function that was only declared has no blocks. -/
structure Function where
  signature : Signature
  /-- The parameters that can be passed, with their unique names. -/
  params : List Param
  slots : List Slot
  blocks : List Block
  /-- The names of parameters and blocks. -/
  names : NameTable
deriving DecidableEq

namespace Function

def code (f : Function) (block : Nat) : List Instr := (f.blocks[block]?.map Block.code).getD []

def setCode (f : Function) (block : Nat) (code : List Instr) : Function :=
  { f with blocks := f.blocks.modify block fun b ↦ { b with code } }

def blockName (f : Function) (block : Nat) : String := (f.blocks[block]?.map Block.name).getD ""

/-- The last instruction of a block is a terminator. -/
def isTerminated (f : Function) (block : Nat) : Bool := f.blocks[block]?.any Block.isTerminated

/-- The blocks to which some instruction of the function may go on. -/
def targets (f : Function) : List Nat := f.blocks.flatMap fun b ↦ b.code.flatMap Instr.targets

/-- No instruction goes on to the block, and it is not the entry. -/
def isDead (f : Function) (block : Nat) : Bool := block ≠ 0 && block ∉ f.targets

def paramValues (f : Function) : List Value :=
  f.params.zipIdx.map fun (p, i) ↦ .param i p.ty.kind

theorem code_setCode {f : Function} {block : Nat} (h : block < f.blocks.length)
    (code : List Instr) : (f.setCode block code).code block = code := by
  simp [Function.code, setCode, h]

theorem code_setCode_of_ne {f : Function} {block other : Nat} (h : other ≠ block)
    (code : List Instr) : (f.setCode block code).code other = f.code other := by
  simp [Function.code, setCode, h.symm]

/-- Putting back the instructions that are there changes nothing. -/
theorem setCode_code (f : Function) (block : Nat) : f.setCode block (f.code block) = f := by
  have hblocks : f.blocks.modify block (fun b ↦ { b with code := f.code block }) = f.blocks := by
    apply List.ext_getElem?
    intro i
    rw [List.getElem?_modify]
    split
    · next h =>
      subst h
      cases hb : f.blocks[block]? with
      | none => rfl
      | some b => simp [Function.code, hb]
    · exact id_map _
  rw [setCode, hblocks]

end Function

/-! ## Modules -/

/-- A string constant of the module. -/
structure TextConstant where
  symbol : String
  contents : String
deriving DecidableEq

/-- What belongs to a module besides its functions: its string constants, and the names of both. -/
structure Symbols where
  names : NameTable := {}
  texts : List TextConstant := []
deriving DecidableEq

namespace Symbols

/-- A string constant ends before the first NUL character. -/
def storedText (contents : String) : String :=
  String.ofList (contents.toList.takeWhile (· ≠ '\x00'))

/-- Adds a string constant. Equal constants are not shared. -/
def addText (s : Symbols) (contents : String) : Nat × Symbols :=
  let (symbol, names) := s.names.add "." "str"
  (s.texts.length, { names, texts := s.texts ++ [⟨symbol, storedText contents⟩] })

end Symbols

end BlockCompiler
