import BlockCompiler.Code.Listing
import BlockCompiler.Compile
import BlockCompiler.Program.Text

/-!
# Modules as text

A module is printed as its string constants, then its functions; an instruction stands on a line of
its own behind its number.
-/

namespace BlockCompiler

/-- Texts with a space between them. -/
def spaced : List String → String
  | [] => ""
  | [s] => s
  | s :: t :: rest => s ++ " " ++ spaced (t :: rest)

/-- The text of a line; an instruction that has a name shows it at the end. -/
def Line.toText (l : Line) : String :=
  let head := spaced (l.opcode :: l.words)
  let operands := if l.operands = [] then "" else " " ++ commaSeparated l.operands
  let name := if l.name = "" then "" else " ; " ++ l.name
  head ++ operands ++ name

/-- The text of lines that are numbered from `start` on. -/
def Line.numberedText (start : Nat) : List Line → String
  | [] => ""
  | l :: rest =>
    "  %" ++ toString start ++ ": " ++ l.toText ++ "\n" ++ numberedText (start + 1) rest

/-- The text of blocks, the first of which starts with instruction `start`. -/
def BlockListing.numberedText (start : Nat) : List BlockListing → String
  | [] => ""
  | b :: rest =>
    b.name ++ ":\n" ++ Line.numberedText start b.lines ++
      numberedText (start + b.lines.length) rest

def FunctionListing.toText (f : FunctionListing) : String :=
  let head := (Prototype.mk f.ret f.symbol f.params).toText
  if f.blocks = [] then "declare " ++ head ++ "\n"
  else "define " ++ head ++ "\n" ++ BlockListing.numberedText 0 f.blocks

def TextConstant.toText (t : TextConstant) : String := t.symbol ++ " = \"" ++ t.contents ++ "\"\n"

def Context.toText (c : Context) : String :=
  String.join (c.symbols.texts.map TextConstant.toText ++ c.listings.map FunctionListing.toText)

end BlockCompiler
