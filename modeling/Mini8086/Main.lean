import Mini8086.CommandLine.Interpreter

/-!
# Command line

`mini8086 assemble ARGUMENTS` is the assembler, `mini8086 run ARGUMENTS` the interpreter.  The input
`-` is the standard input, any other a file.
-/

namespace Mini8086

/-- the text of an input, or the reason why it cannot be read -/
def readInput (name : Text) : IO (Except String Text) := do
  try
    let text ←
      if name = ['-'] then (← IO.getStdin).readToEnd
      else IO.FS.readFile (String.ofList name)
    return .ok text.toList
  catch
    | .noFileOrDirectory .. => return .error noSuchInput
    | e => return .error (toString e)

/-- prints an outcome and gives its exit code -/
def Outcome.print (o : Outcome) : IO UInt32 := do
  IO.print (linesText o.out)
  IO.eprint (linesText o.err)
  return o.exit.toUInt32

end Mini8086

open Mini8086 in
def main (args : List String) : IO UInt32 := do
  match args with
  | "assemble" :: rest =>
    match Assembler.Options.read (rest.map String.toList) with
    | .error e => e.outcome.print
    | .ok (o, name) => (Assembler.outcome o (← readInput name)).print
  | "run" :: rest =>
    match Interpreter.Options.read (rest.map String.toList) with
    | .error e => e.outcome.print
    | .ok (o, name) => (Interpreter.outcome o (← readInput name)).print
  | _ =>
    IO.eprintln "usage: mini8086 (assemble | run) INPUT [OPTION ...]"
    return 2
