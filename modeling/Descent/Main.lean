import Descent.Command

/-!
# The command line

The command on the arguments and the standard input of a process. The line is only read
when it is asked for.
-/

namespace Descent.Command

/-- Show what the command does and end with its code; a breakdown ends with `1`. -/
def report (o : Outcome) : IO UInt32 := do
  IO.print (String.ofList o.output)
  IO.eprint (String.ofList o.errors)
  match o.ending with
  | .ok code => return code.toUInt32
  | .error problem =>
    IO.eprintln (String.ofList problem.message)
    return 1

/-- The command line, in a setting. -/
def runIO (setting : Setting) (arguments : List String) : IO UInt32 := do
  let arguments := arguments.map (·.toList)
  match Request.ofArguments setting.clustering arguments with
  | .ok (.evaluate verbose none) =>
    IO.print (String.ofList prompt)
    (← IO.getStdout).flush
    let input := (← (← IO.getStdin).getLine).toList
    let o := ask setting verbose input
    report { o with output := o.output.drop prompt.length }
  | _ => report (run setting arguments [])

end Descent.Command
