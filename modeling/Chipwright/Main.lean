import Chipwright.Command.Run

/-!
# The program

Runs the command on the arguments, the environment and the files of the system.
-/
namespace Chipwright.Command

/-- What the system has at a path. That a directory has no content shows that it is one. -/
def systemEntry (path : String) : IO (Option Entry) := do
  try
    let bytes ← IO.FS.readBinFile path
    return some (.file bytes.toList)
  catch
    | .inappropriateType .. => return some .directory
    | _ => return none

/-- The path that a key of a file tree stands for. -/
def systemPath : List String → String
  | "/" :: parts => "/" ++ "/".intercalate parts
  | parts => "/".intercalate parts

/-- The part of the system's files that leads to a path. -/
def snapshot (p : Path) : IO (List (List String × Entry)) := do
  let mut key : List String := []
  let mut entries := []
  for part in p.steps do
    key := FileTree.step key part
    if let some entry ← systemEntry (systemPath key) then
      entries := (key, entry) :: entries
  return entries

/-- The paths that a command line speaks of. -/
def paths (args : List String) : List Path :=
  match Request.ofArguments args with
  | .ok (.compile i) => [i.inputPath, i.outputPath]
  | _ => []

def systemEnvironment : IO Options.Environment :=
  Options.variableNames.filterMapM fun name => do
    return (← IO.getEnv name).map fun value => (name, value)

end Chipwright.Command

open Chipwright Chipwright.Command in
def main (args : List String) : IO UInt32 := do
  let files : FileTree := ⟨(← (paths args).mapM snapshot).flatten⟩
  match Command.run (← systemEnvironment) args files with
  | .error e =>
    IO.eprint (Printed.text (Printed.err [usage, s!"Error: {e.message}"]).stderr)
    return ExitCode.invalidArguments.code.toUInt32
  | .ok outcome =>
    for (key, bytes) in files.changes outcome.files do
      IO.FS.writeBinFile (systemPath key) ⟨bytes.toArray⟩
    IO.print (Printed.text outcome.printed.stdout)
    IO.eprint (Printed.text outcome.printed.stderr)
    return outcome.exit.code.toUInt32
