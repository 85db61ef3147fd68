import FlowTypes.CommandLine.Run

/-!
# The program

Reads the files that a command names, runs it, prints what it wrote, and exits with its status.
-/

namespace FlowTypes.CommandLine

/-- The text of a file on disk. -/
def loadFile (path : String) : IO (Except ReadError String) := do
  try
    let bytes ← IO.FS.readBinFile path
    return match String.fromUTF8? bytes with
      | some text => .ok text
      | none => .error .notText
  catch e =>
    return match e with
      | .permissionDenied .. => .error .denied
      | .inappropriateType .. => .error .directory
      | _ => .error .missing

/-- Reads files, runs, prints, and returns the status. -/
def runProgram (args : List String) : IO UInt32 := do
  let paths := match Invocation.read args with
    | .ok i => i.files
    | .error _ => []
  let loaded ← paths.mapM fun path => return (path, ← loadFile path)
  let files : Files := fun path => (loaded.lookup path).getD (.error .missing)
  let stderr ← IO.getStderr
  let outcome := run args files (← stderr.isTty)
  IO.print outcome.stdout
  IO.eprint outcome.stderr
  return outcome.status.toUInt32

end FlowTypes.CommandLine

/-- The program. -/
def main (args : List String) : IO UInt32 := FlowTypes.CommandLine.runProgram args
