import ClassTranscript.Files.Fault
import ClassTranscript.Files.Path
import ClassTranscript.Text.Utf8

/-!
# File trees

A `FileTree` is the content of a file system: directories and files, each at its `Place`, the list
of names on the way down to it from the root. The operations take paths, which are followed from a
working directory, and fail as the operations of a file system do.
-/

namespace ClassTranscript

open Text

/-- The names on the way down from the root. -/
abbrev Place : Type :=
  List String

/-- What there is at a place. -/
inductive Entry where
  | directory
  | file (content : Bytes)
  deriving DecidableEq, Repr

/-- Directories and files. The root is a directory and is not listed. -/
structure FileTree where
  entries : List (Place × Entry) := []
  deriving DecidableEq, Repr

namespace FileTree

/-- What there is at a place. -/
def entry? (t : FileTree) (place : Place) : Option Entry :=
  if place.isEmpty then some .directory else t.entries.lookup place

/-- The tree with an entry put at a place. -/
def put (t : FileTree) (place : Place) (entry : Entry) : FileTree :=
  ⟨(place, entry) :: t.entries.filter (·.1 != place)⟩

/-! ### Following paths -/

/-- The directory that steps lead to from a directory. -/
def descend (t : FileTree) : Place → List String → Except Fault Place
  | here, [] => .ok here
  | here, step :: steps =>
    if step = ".." then t.descend here.dropLast steps
    else
      match t.entry? (here ++ [step]) with
      | none => .error .notFound
      | some (.file _) => .error .notADirectory
      | some .directory => t.descend (here ++ [step]) steps

/-- Where a path is followed from. -/
def startOf (cwd : Place) (path : Path) : Place :=
  match path.anchor with
  | .root => []
  | _ => cwd

/-- The place that a path leads to. There is a directory above it, but it may be free itself. -/
def locate (t : FileTree) (cwd : Place) (path : Path) : Except Fault Place :=
  if path.text = "" then .error .notFound
  else
    let start := startOf cwd path
    match path.fileName? with
    | none => t.descend start path.steps
    | some name => (t.descend start path.steps.dropLast).map (· ++ [name])

/-- What a path leads to, with its place. -/
def find (t : FileTree) (cwd : Place) (path : Path) : Except Fault (Place × Entry) := do
  let place ← t.locate cwd path
  match t.entry? place with
  | none => throw .notFound
  | some .directory => return (place, .directory)
  | some (.file content) =>
    if path.endsIdle then throw .notADirectory else return (place, .file content)

/-! ### Reading -/

/-- The content of the file that a path leads to. -/
def read (t : FileTree) (cwd : Place) (path : Path) : Except Fault Bytes := do
  match ← t.find cwd path with
  | (_, .file content) => return content
  | (_, .directory) => throw .isADirectory

/-- The files below a place with the names on the way down to them from there. Names are in order
within each directory, and what is inside a directory stands where its name does. -/
def filesBelow (t : FileTree) (place : Place) : List Place :=
  let below :=
    t.entries.filterMap fun (other, entry) =>
      match entry with
      | .file _ => if place.isPrefixOf other then some (other.drop place.length) else none
      | .directory => none
  below.mergeSort (fun a b => ¬ b < a)

/-- The files at and below a path, in the order of their names. -/
def walk (t : FileTree) (cwd : Place) (path : Path) : Except Fault (List Path) := do
  match ← t.find cwd path with
  | (_, .file _) => return [path]
  | (place, .directory) =>
    return (t.filesBelow place).map fun names => names.foldl (fun p name => p.join ⟨name⟩) path

/-! ### Writing -/

/-- Puts a file where a path leads to. -/
def write (t : FileTree) (cwd : Place) (path : Path) (content : Bytes) :
    Except Fault FileTree := do
  let place ← t.locate cwd path
  if t.entry? place = some .directory ∨ path.endsIdle then throw .isADirectory
  return t.put place (.file content)

/-- Makes the directories that are missing on the way that steps lead from a directory, and tells
whether the way was free. A file is in the way: as something that exists where a directory is to be
made, and as something that is not a directory where one was expected. -/
def makeWay (t : FileTree) (made : Bool) : Place → List String → FileTree × Except Fault Unit
  | _, [] => (t, .ok ())
  | here, step :: steps =>
    if step = ".." then t.makeWay made here.dropLast steps
    else
      match t.entry? (here ++ [step]) with
      | some .directory => t.makeWay made (here ++ [step]) steps
      | some (.file _) =>
        (t, .error (if made ∨ steps.isEmpty then .alreadyExists else .notADirectory))
      | none => (t.put (here ++ [step]) .directory).makeWay true (here ++ [step]) steps

/-- Makes the directory that a path leads to, with all that are missing above it. -/
def makeDirectories (t : FileTree) (cwd : Place) (path : Path) : FileTree × Except Fault Unit :=
  t.makeWay false (startOf cwd path) path.steps

end FileTree

end ClassTranscript
