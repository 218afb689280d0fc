import Intension.Command.Running

/-!
# Intension.Main

The program: reads the files that the command line names, and prints the
outcome of the command.
-/

namespace Intension.Main

/-- What is under the name of a file. -/
def read (name : Text) : IO FileContent := do
  try
    return .bytes (← IO.FS.readBinFile name.str).toList
  catch
    | .noFileOrDirectory .. => return .absent
    | _ => return .unreadable

/-- The files that an intent names, with their content. -/
def readAll (intent : Command.Intent) : IO (List (Text × FileContent)) :=
  (Command.fileNames intent).mapM fun name => return (name, ← read name)

end Intension.Main

/-- Runs the program. -/
def main (args : List String) : IO UInt32 := do
  let intent := Intension.Command.Intent.ofArguments (args.map String.toList)
  let files ← Intension.Main.readAll intent
  let outcome := intent.outcome fun name => (files.lookup name).getD .absent
  IO.print outcome.out.str
  IO.eprint outcome.err.str
  return UInt32.ofNat outcome.code
