import ClassTranscript.Command.Host
import ClassTranscript.Files.Tree

/-!
# Hosts made of data

A `World` is a host whose files, input and programs are values. A program is the function from its
working directory and its arguments to what it leaves behind; it changes no files.
-/

namespace ClassTranscript

open Text

/-- The state of a host made of data. -/
structure World where
  files : FileTree := {}
  /-- The working directory. -/
  cwd : Place := []
  input : Bytes := []
  /-- The programs that can be run, by name. -/
  programs : List (String × (Place → List String → Finished)) := []

namespace World

/-- What a program does when it is run. -/
def runProgram (w : World) (program : String) (arguments : List String)
    (directory : Option Path) : Except Fault Finished := do
  let place ← match directory with
    | none => pure w.cwd
    | some path => w.files.descend (FileTree.startOf w.cwd path) path.steps
  match w.programs.lookup program with
  | none => throw .notFound
  | some run => return run place arguments

instance : Host (StateM World) where
  readInput := return (← get).input
  readFile path := return (← get).files.read (← get).cwd path
  walk path := return (← get).files.walk (← get).cwd path
  makeDirectories path := modifyGet fun w =>
    let (files, result) := w.files.makeDirectories w.cwd path
    (result, { w with files })
  writeFile path content := modifyGet fun w =>
    match w.files.write w.cwd path content with
    | .ok files => (.ok (), { w with files })
    | .error fault => (.error fault, w)
  runProgram program arguments directory := return (← get).runProgram program arguments directory

end World

end ClassTranscript
