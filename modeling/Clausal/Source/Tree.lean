import Clausal.Source.Files

/-!
# Directory trees

A tree lists the files and directories below one directory. Paths that lead out of the tree, or are
too long to be looked up, denote nothing in it.
-/
namespace Clausal

/-- A file with its status, or a directory without one. -/
structure TreeEntry where
  place : List (List Char)
  file : Option FileStatus
  deriving DecidableEq, Repr

structure FileTree where
  entries : List TreeEntry
  deriving DecidableEq, Repr

namespace FileTree

def empty : FileTree := ⟨[]⟩

def components (path : String) : List (List Char) :=
  (Path.splitSlashes path.toList).filter fun c => !(c.isEmpty || c == ['.'])

/-- Puts a file at a path, in place of any earlier one. -/
def addFile (t : FileTree) (path : String) (file : FileStatus) : FileTree :=
  let place := components path
  ⟨⟨place, some file⟩ :: t.entries.filter (·.place != place)⟩

def addDirectory (t : FileTree) (path : String) : FileTree :=
  ⟨⟨components path, none⟩ :: t.entries⟩

def isDirectory (t : FileTree) (place : List (List Char)) : Bool :=
  place.isEmpty || t.entries.any fun e =>
    (e.place == place && e.file.isNone) ||
      (place.length < e.place.length && e.place.take place.length == place)

/-- Follows components from a directory to the place of a file. Every component but the last has
to lead to a directory. -/
def walk (t : FileTree) (directory : List (List Char)) :
    List (List Char) → Option (List (List Char))
  | [] => none
  | [name] =>
    if name.isEmpty || name == ['.'] || name == ['.', '.'] then none else some (directory ++ [name])
  | name :: rest =>
    if name.isEmpty || name == ['.'] then t.walk directory rest
    else if name == ['.', '.'] then
      if directory.isEmpty then none else t.walk directory.dropLast rest
    else
      let inner := directory ++ [name]
      if t.isDirectory inner then t.walk inner rest else none

/-- The number of bytes that a path may have and still be looked up. -/
def longestPath : Nat := 4095

/-- The place that a path denotes. -/
def resolve (t : FileTree) (path : String) : Option (List (List Char)) :=
  if Path.isAbsolute path ∨ longestPath < path.utf8ByteSize then none
  else t.walk [] (Path.splitSlashes path.toList)

def view (t : FileTree) : FileView :=
  FileView.ofEntries t.resolve (t.entries.filterMap fun e => e.file.map (e.place, ·)) .absent rfl

end FileTree

end Clausal
