/-!
# Paths

Paths are texts with `/` between their components. Nothing is normalised when paths are joined;
when they are taken apart, empty components and `.` do not count, but for a leading `.`.
-/
namespace Clausal.Path

def isAbsolute (path : String) : Bool := path.toList.head? = some '/'

/-- The second path as seen from the first. -/
def join (base path : String) : String :=
  if isAbsolute path then path
  else if base.isEmpty || base.toList.getLast? = some '/' then base ++ path
  else base ++ "/" ++ path

def splitSlashes : List Char → List (List Char)
  | [] => [[]]
  | c :: rest =>
    if c = '/' then [] :: splitSlashes rest
    else
      match splitSlashes rest with
      | [] => [[c]]
      | first :: others => (c :: first) :: others

def joinSlashes (components : List (List Char)) : List Char := ['/'].intercalate components

/-- A leading `/` or `.`, and the components after it. -/
def parts (path : String) : List Char × List (List Char) :=
  match path.toList with
  | '/' :: rest => (['/'], splitSlashes rest)
  | ['.'] => (['.'], splitSlashes [])
  | '.' :: '/' :: rest => (['.'], splitSlashes ('/' :: rest))
  | chars => ([], splitSlashes chars)

/-- Drops the components at the end that do not count. -/
def trim (components : List (List Char)) : List (List Char) :=
  (components.reverse.dropWhile fun c => c.isEmpty || c == ['.']).reverse

/-- The path without its last component. The empty path and `/` have none. -/
def parent? (path : String) : Option String :=
  let (front, components) := parts path
  let components := trim components
  if components.isEmpty then if front = ['.'] then some "" else none
  else some (String.ofList (front ++ joinSlashes (trim components.dropLast)))

/-- The last component, unless it is `..`. -/
def fileName? (path : String) : Option (List Char) :=
  match (trim (parts path).2).getLast? with
  | none => none
  | some name => if name = ['.', '.'] then none else some name

/-- Whether the last component has a point that is not its first character. -/
def hasExtension (path : String) : Bool :=
  match fileName? path with
  | none => false
  | some name => name.tail.contains '.'

end Clausal.Path
