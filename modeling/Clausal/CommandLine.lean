import Clausal.Baseline
import Clausal.CommandLine.Arguments
import Clausal.CommandLine.Listing
import Clausal.NamedString
import Clausal.Scope.Nesting
import Clausal.Source.Files

/-!
# The command line

A run depends on its arguments and on what is known of the file system. When it needs a file that
has not been looked at, it says so and can be run again with more known.
-/
namespace Clausal.CommandLine

/-- What a run leaves behind. -/
structure Report where
  code : UInt32
  output : String
  diagnostics : String
  /-- A path to look at before the run can be finished. -/
  wanted : Option String
  deriving DecidableEq, Repr

namespace Report

def success (output : String) : Report := ⟨0, output, "", none⟩

def failure (diagnostics : String) : Report := ⟨1, "", diagnostics ++ "\n", none⟩

def usage (e : UsageError) : Report := ⟨2, "", "error: " ++ e.message ++ "\n", none⟩

def ofError : ParseError → Report
  | .unexplored path => ⟨1, "", "", some path⟩
  | e => failure ("Error: " ++ e.message)

end Report

def helpText : String :=
  "Usage: clausal [OPTIONS] <COMMAND>\n\n" ++
    "Commands:\n" ++
    "  parse [FILES]...           Prints the flat declarations of the units\n" ++
    "  structure [FILES]...       Prints the structured program of the units\n" ++
    "  goal <TEXT>                Parses a single goal\n" ++
    "  extract <NAME> [FILES]...  Prints the string constant defined in the units\n\n" ++
    "Options:\n" ++
    "  -I, --include <PATHS>  Search path for accumulated units (repeatable)\n" ++
    "      --cwd <CWD>        Working directory for unit lookup\n" ++
    "      --legacy           Accept the legacy surface syntax\n" ++
    "      --verbose          Report bootstrap progress at info level\n"

/-- Reads units and reports on the program they make. -/
def withProgram (v : Vocabulary) (loader : Loader) (units : List String)
    (report : Vocabulary → List Decl → Report) : Report :=
  match parseUnits v loader units with
  | (.error e, _) => .ofError e
  | (.ok program, v) => report v program

def runCommand (v : Vocabulary) (loader : Loader) : Command → Report
  | .parse units => withProgram v loader units fun v program => .success (listDecls v 0 program)
  | .nested units => withProgram v loader units fun v program =>
    match nest program with
    | .error e => .ofError (.term e)
    | .ok scope => .success (listScope v 0 scope)
  | .goal text =>
    match parseGoal v "<goal>" text with
    | (.error e, _) => .ofError e
    | (.ok goal, v) => .success (clauseLine v 0 goal.term)
  | .extract name units => withProgram v loader units fun v program =>
    match namedString? v program name with
    | none => .failure (name ++ ": not found")
    | some text => .success (text ++ "\n")

def runRequest (view : FileView) : Request → Report
  | .help => .success helpText
  | .run options command =>
    let variant := if options.legacy then .legacy else .standard
    let loaded := Baseline.load .initial ⟨options.verbose, variant⟩
    match loaded.result with
    | .error e => .ofError e
    | .ok _ =>
      let search : SearchPath := ⟨options.workingDirectory.getD ".", options.paths⟩
      runCommand loaded.vocabulary (search.loader view) command

def run (view : FileView) (arguments : List String) : Report :=
  match Request.ofArguments arguments with
  | .error e => .usage e
  | .ok request => runRequest view request

end Clausal.CommandLine
