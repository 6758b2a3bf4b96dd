import Clausal.CommandLine

/-!
# The program

Runs the command line against the real file system, looking at files as they are wanted.
-/
namespace Clausal.CommandLine

/-- What stands at a path. A place that cannot be opened as a file counts as no file, unless it is
one that may not be read. -/
def look (path : String) : IO FileStatus := do
  try
    return FileStatus.ofBytes (← IO.FS.readBinFile path)
  catch e =>
    match e with
    | .permissionDenied .. => return .unreadable "Permission denied"
    | _ => return .absent

partial def finish (arguments : List String) (known : List (String × FileStatus)) :
    IO Report := do
  let report := run (FileView.ofExplored known) arguments
  match report.wanted with
  | none => return report
  | some path => finish arguments ((path, ← look path) :: known)

end Clausal.CommandLine

def main (arguments : List String) : IO UInt32 := do
  let report ← Clausal.CommandLine.finish arguments []
  IO.print report.output
  IO.eprint report.diagnostics
  return report.code
