/-!
# Arguments of the command line

Options may stand before and after the command. An option given in both places counts where it
stands after the command. After `--` every argument is an operand, and after the word `help` every
argument names a command.
-/
namespace Clausal.CommandLine

inductive Command where
  | parse (units : List String)
  | nested (units : List String)
  | goal (text : String)
  | extract (name : String) (units : List String)
  deriving DecidableEq, Repr

structure Options where
  /-- The search paths, in the order given. -/
  paths : List String
  workingDirectory : Option String
  legacy : Bool
  verbose : Bool
  deriving DecidableEq, Repr

namespace Options

def empty : Options := ⟨[], none, false, false⟩

/-- The options of both places. -/
def merge (before after : Options) : Options where
  paths := if after.paths.isEmpty then before.paths else after.paths
  workingDirectory := after.workingDirectory.or before.workingDirectory
  legacy := before.legacy || after.legacy
  verbose := before.verbose || after.verbose

end Options

/-- Why the arguments ask for nothing. -/
inductive UsageError where
  | missingCommand
  | unknownCommand (name : String)
  | unexpected (argument : String)
  | repeatedOption (name : String)
  | missingValue (name : String)
  | missingOperand (name : String)
  deriving DecidableEq, Repr

namespace UsageError

def message : UsageError → String
  | missingCommand => "a command is required"
  | unknownCommand name => "unrecognized command '" ++ name ++ "'"
  | unexpected argument => "unexpected argument '" ++ argument ++ "'"
  | repeatedOption name => "the option '" ++ name ++ "' cannot be used multiple times"
  | missingValue name => "a value is required for '" ++ name ++ "'"
  | missingOperand name => "missing operand <" ++ name ++ ">"

end UsageError

/-- What the arguments ask for. -/
inductive Request where
  | help
  | run (options : Options) (command : Command)
  deriving DecidableEq, Repr

inductive CommandName where
  | parse
  | nested
  | goal
  | extract
  deriving DecidableEq, Repr

namespace CommandName

def all : List CommandName := [parse, nested, goal, extract]

def text : CommandName → String
  | parse => "parse"
  | nested => "structure"
  | goal => "goal"
  | extract => "extract"

def of? (name : String) : Option CommandName := all.find? (·.text == name)

/-- Whether a command that has been given some operands takes one more. -/
def takesMore : CommandName → Nat → Bool
  | goal, given => given == 0
  | _, _ => true

end CommandName

/-- An option that takes a value. -/
inductive ValueOption where
  | searchPath
  | workingDirectory
  deriving DecidableEq, Repr

namespace ValueOption

def text : ValueOption → String
  | searchPath => "--include"
  | workingDirectory => "--cwd"

end ValueOption

/-- How the next argument is read. -/
inductive Stage where
  /-- As an option, a command or an operand. -/
  | arguments
  /-- As an operand, whatever it looks like. -/
  | operands
  /-- As the name of a command to be helped with, of which there may be one. -/
  | topic (named : Bool)
  /-- Not at all, because help was asked for. -/
  | help
  deriving DecidableEq, Repr

/-- The arguments read so far. -/
structure Progress where
  command : Option CommandName
  before : Options
  after : Options
  operands : List String
  /-- The option whose value comes next. -/
  pending : Option ValueOption
  stage : Stage
  deriving DecidableEq, Repr

namespace Progress

def initial : Progress := ⟨none, .empty, .empty, [], none, .arguments⟩

/-- The options of the place that has been reached. -/
def options (p : Progress) : Options := if p.command.isNone then p.before else p.after

def setOptions (p : Progress) (o : Options) : Progress :=
  if p.command.isNone then { p with before := o } else { p with after := o }

/-- Sets an option to a value, which may not be empty. -/
def setValue (p : Progress) (option : ValueOption) (value : String) :
    Except UsageError Progress :=
  let p := { p with pending := none }
  let o := p.options
  if value.isEmpty then .error (.missingValue option.text)
  else
    match option with
    | .searchPath => .ok (p.setOptions { o with paths := o.paths ++ [value] })
    | .workingDirectory =>
      if o.workingDirectory.isSome then .error (.repeatedOption option.text)
      else .ok (p.setOptions { o with workingDirectory := some value })

/-- An option whose value is attached to it or follows. -/
def valueOption (p : Progress) (option : ValueOption) : Option String → Except UsageError Progress
  | some value => p.setValue option value
  | none => .ok { p with pending := some option }

/-- An operand of the command. -/
def operand (p : Progress) (argument : String) (name : CommandName) :
    Except UsageError Progress :=
  if name.takesMore p.operands.length then .ok { p with operands := p.operands ++ [argument] }
  else .error (.unexpected argument)

/-- An argument that is no option: the command, or an operand of it. -/
def word (p : Progress) (argument : String) : Except UsageError Progress :=
  match p.command with
  | some name => p.operand argument name
  | none =>
    if argument = "help" then .ok { p with stage := .topic false }
    else
      match CommandName.of? argument with
      | some name => .ok { p with command := some name }
      | none => .error (.unknownCommand argument)

/-- An option written with two hyphens, with the value attached by `=` if there is one. -/
def longOption (p : Progress) (argument name : String) (value : Option String) :
    Except UsageError Progress :=
  let o := p.options
  if name = "include" then p.valueOption .searchPath value
  else if name = "cwd" then p.valueOption .workingDirectory value
  else if value.isSome then .error (.unexpected argument)
  else if name = "legacy" then
    if o.legacy then .error (.repeatedOption argument)
    else .ok (p.setOptions { o with legacy := true })
  else if name = "verbose" then
    if o.verbose then .error (.repeatedOption argument)
    else .ok (p.setOptions { o with verbose := true })
  else if name = "help" ∨ name = "version" ∧ p.command.isNone then .ok { p with stage := .help }
  else .error (.unexpected argument)

/-- An option written with one hyphen, and what is attached to it. -/
def shortOption (p : Progress) (argument : String) (letter : Char) (attached : List Char) :
    Except UsageError Progress :=
  if letter = 'I' then
    match attached with
    | [] => p.valueOption .searchPath none
    | '=' :: value => p.valueOption .searchPath (some (String.ofList value))
    | value => p.valueOption .searchPath (some (String.ofList value))
  else if letter = 'h' ∨ letter = 'V' ∧ p.command.isNone then .ok { p with stage := .help }
  else .error (.unexpected argument)

/-- An argument that may be an option, the value of one, or a word. -/
def optionOrWord (p : Progress) (argument : String) : Except UsageError Progress :=
  match argument.toList, p.pending with
  | '-' :: _ :: _, some option => .error (.missingValue option.text)
  | _, some option => p.setValue option argument
  | ['-', '-'], none => .ok { p with stage := .operands }
  | '-' :: '-' :: rest, none =>
    let name := String.ofList (rest.takeWhile (· != '='))
    match rest.dropWhile (· != '=') with
    | [] => p.longOption argument name none
    | _ :: value => p.longOption argument name (some (String.ofList value))
  | '-' :: letter :: attached, none => p.shortOption argument letter attached
  | _, none => p.word argument

/-- The name of a command to be helped with. Only `help` itself and the commands can be, and they
have no commands of their own. -/
def topic (p : Progress) (argument : String) (named : Bool) : Except UsageError Progress :=
  if ¬ named ∧ (argument = "help" ∨ (CommandName.of? argument).isSome) then
    .ok { p with stage := .topic true }
  else .error (.unknownCommand argument)

/-- Reads one argument. -/
def step (p : Progress) (argument : String) : Except UsageError Progress :=
  match p.stage, p.command with
  | .arguments, _ => p.optionOrWord argument
  | .operands, some name => p.operand argument name
  | .operands, none => .error (.unexpected argument)
  | .topic named, _ => p.topic argument named
  | .help, _ => .ok p

/-- The command with its operands. -/
def toCommand : CommandName → List String → Except UsageError Command
  | .parse, units => .ok (.parse units)
  | .nested, units => .ok (.nested units)
  | .goal, [text] => .ok (.goal text)
  | .goal, [] => .error (.missingOperand "TEXT")
  | .goal, _ :: extra :: _ => .error (.unexpected extra)
  | .extract, name :: units => .ok (.extract name units)
  | .extract, [] => .error (.missingOperand "NAME")

def run (p : Progress) : Except UsageError Request :=
  match p.pending, p.command with
  | some option, _ => .error (.missingValue option.text)
  | none, none => .error .missingCommand
  | none, some name => do return .run (p.before.merge p.after) (← toCommand name p.operands)

def finish (p : Progress) : Except UsageError Request :=
  match p.stage with
  | .arguments | .operands => p.run
  | .topic _ | .help => .ok .help

end Progress

/-- What a list of arguments asks for. -/
def Request.ofArguments (arguments : List String) : Except UsageError Request := do
  let p ← arguments.foldlM Progress.step .initial
  p.finish

end Clausal.CommandLine
