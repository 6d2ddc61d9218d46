import WordPattern.CommandLine.Run

/-! The command line. -/

namespace WordPattern.CommandLine

/-- The files among the arguments' values, with their contents. -/
def readFiles (args : List Text) : IO (Text → Except Text Text) := do
  let some request := Request.parse? args | return fun _ => .error []
  let some path := request.file | return fun _ => .error []
  match ← (IO.FS.readFile (String.ofList path)).toBaseIO with
  | .ok text => return fun _ => .ok text.toList
  | .error e => return fun _ => .error e.toString.toList

end WordPattern.CommandLine

open WordPattern in
def main (args : List String) : IO UInt32 := do
  let args := args.map String.toList
  let outcome := CommandLine.run (← CommandLine.readFiles args) args
  IO.print (String.ofList outcome.output)
  IO.eprint (String.ofList outcome.errorText)
  return outcome.exitCode.toUInt32
