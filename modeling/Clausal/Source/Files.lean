import Clausal.Source.Loader

/-!
# Units in files

A view of a file system says what is known at each path. Relative names of units are tried next to
the unit that includes them, then in the working directory, then along the search paths, each as
it is and with the extension.
-/
namespace Clausal

/-- What stands at a path. -/
inductive FileStatus where
  /-- Nobody has looked yet. -/
  | unexplored
  /-- No file, but perhaps a directory. -/
  | absent
  | unreadable (reason : String)
  | text (text : String)
  deriving DecidableEq, Repr

namespace FileStatus

/-- A file with these bytes. -/
def ofBytes (bytes : ByteArray) : FileStatus :=
  match String.fromUTF8? bytes with
  | some s => text s
  | none => unreadable "stream did not contain valid UTF-8"

def text? : FileStatus → Option String
  | text s => some s
  | _ => none

end FileStatus

/-- What is known of a file system, which holds finitely many texts. -/
structure FileView where
  status : String → FileStatus
  texts : List String
  complete : ∀ {path text}, status path = .text text → text ∈ texts

namespace FileView

/-- The entries of a list, for paths that denote keys of it. -/
def ofEntries {κ : Type} [BEq κ] (key : String → Option κ) (entries : List (κ × FileStatus))
    (otherwise : FileStatus) (h : otherwise.text? = none) : FileView where
  status path :=
    match key path with
    | none => otherwise
    | some k =>
      match entries.find? (·.1 == k) with
      | none => otherwise
      | some entry => entry.2
  texts := entries.filterMap (·.2.text?)
  complete {path text} hs := by
    split at hs
    · simp [hs, FileStatus.text?] at h
    · split at hs
      · simp [hs, FileStatus.text?] at h
      · next entry he =>
        exact List.mem_filterMap.2
          ⟨entry, List.mem_of_find?_eq_some he, by rw [hs]; rfl⟩

/-- The paths looked at so far. -/
def ofExplored (entries : List (String × FileStatus)) : FileView :=
  ofEntries some entries .unexplored rfl

end FileView

/-- Where unit files are looked for. -/
structure SearchPath where
  workingDirectory : String
  directories : List String
  deriving DecidableEq, Repr

namespace SearchPath

/-- The names of the files that a unit name may mean. -/
def fileNames (name : String) : List String :=
  if Path.hasExtension name then [name] else [name, withExtension name]

/-- The directories to look in, for a unit included from the given file. -/
def places (s : SearchPath) (origin : Option String) : List String :=
  let near := match origin.bind Path.parent? with
    | some directory => [Path.join s.workingDirectory directory]
    | none => []
  near ++ s.workingDirectory :: s.directories.map (Path.join s.workingDirectory)

/-- The paths to try, in order. -/
def candidates (s : SearchPath) (origin : Option String) (name : String) : List String :=
  if Path.isAbsolute name then fileNames name
  else (s.places origin).flatMap fun place => (fileNames name).map (Path.join place)

/-- The first file among the paths. -/
def firstFile (view : FileView) (span : Span) (name : String) :
    List String → Except ParseError Source
  | [] => .error (.load span name .fileNotFound)
  | path :: rest =>
    match view.status path with
    | .unexplored => .error (.unexplored path)
    | .absent => firstFile view span name rest
    | .unreadable reason => .error (.unreadable path reason)
    | .text text => .ok ⟨path, text⟩

theorem mem_of_firstFile {view : FileView} {span : Span} {name : String} {paths : List String}
    {source : Source} (h : firstFile view span name paths = .ok source) :
    source.text ∈ view.texts := by
  induction paths with
  | nil => simp [firstFile] at h
  | cons path rest ih =>
    unfold firstFile at h
    split at h
    · cases h
    · exact ih h
    · cases h
    · obtain rfl := Except.ok.inj h
      exact view.complete ‹_›

def loader (s : SearchPath) (view : FileView) : Loader where
  load span name := firstFile view span name (s.candidates (some span.source) name)
  texts := view.texts
  complete := mem_of_firstFile

end SearchPath

end Clausal
