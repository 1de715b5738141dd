import VectorScript.Command.Arguments

/-!
# The command line

Reads the script that the arguments name, and prints the outcome of the command.
-/

namespace VectorScript

/-- Reads a script from a file. -/
def Command.readScript (file : String) : IO (Except Unreadable String) := do
  try
    return .ok (← IO.FS.readFile file)
  catch
    | .noFileOrDirectory .. => return .error .missing
    | e => return .error (.other (toString e))

end VectorScript

open VectorScript in
def main (args : List String) : IO UInt32 := do
  match Command.ofArguments args with
  | none =>
    IO.eprintln "error: unknown command or arguments"
    return 2
  | some c =>
    let outcome := c.run (← Command.readScript c.file)
    IO.print outcome.stdout
    IO.eprint outcome.stderr
    return outcome.status.toUInt32
