import ThreeAddress.Command

/-! The program: prints what the command prints, and its failure on the error stream. -/

namespace ThreeAddress

def readFile (name : String) : IO (Except FileFault String) := do
  try
    return .ok (← IO.FS.readFile name)
  catch
    | .inappropriateType .. => return .error .isFolder
    | _ => return .error .missing

end ThreeAddress

def main (args : List String) : IO UInt32 := do
  let outcome ← ThreeAddress.Command.run ThreeAddress.readFile args
  IO.print outcome.stdout
  match outcome.failure with
  | none => return 0
  | some message =>
    IO.eprintln ("error: " ++ message)
    return 1
