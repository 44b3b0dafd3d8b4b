import BlockCompiler.Compile
import BlockCompiler.Code.Printer

/-!
# Command line

Compiles the file that is named, or standard input, and prints the listing of the module.
-/

namespace BlockCompiler

/-- Reads the source text; there is none if the arguments do not fit. -/
def readSource : List String → IO (Option String)
  | [] => do
    let input ← IO.getStdin
    return some (← input.readToEnd)
  | [path] => do return some (← IO.FS.readFile path)
  | _ => return none

end BlockCompiler

open BlockCompiler

/-- Prints the listing of the module, or what is wrong with its source. -/
def main (args : List String) : IO UInt32 := do
  match ← readSource args with
  | none =>
    IO.eprintln "error: usage: blockc [FILE]"
    return 1
  | some source =>
    let r := compile source
    match r.outcome with
    | .ok () =>
      IO.print r.context.toText
      return 0
    | .error e =>
      IO.eprintln ("error: " ++ e.diagnostic.toText)
      return 1
