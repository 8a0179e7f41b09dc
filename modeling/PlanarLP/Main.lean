import PlanarLP.CommandLine

/-! The program: it reads the file that the arguments name, prints the answer and exits. -/

namespace PlanarLP.Main

/-- The file that a command reads. -/
def file? (args : List String) : Option String :=
  match CommandLine.command? args with
  | some (.solve o) => o.request
  | _ => none

def fileError : IO.Error → CommandLine.FileError
  | .noFileOrDirectory _ _ _ => .notFound
  | e => .other (toString e)

def readFile (path : String) : IO (Except CommandLine.FileError String) := do
  try return .ok (← IO.FS.readFile path)
  catch e => return .error (fileError e)

end PlanarLP.Main

def main (args : List String) : IO UInt32 := do
  let content ← match PlanarLP.Main.file? args with
    | some path => PlanarLP.Main.readFile path
    | none => pure (.ok "")
  let output := PlanarLP.CommandLine.run args fun _ => content
  IO.print output.stdout
  IO.eprint output.stderr
  return output.exitCode.toUInt32
