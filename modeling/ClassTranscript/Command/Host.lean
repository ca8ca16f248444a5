import ClassTranscript.Files.Fault
import ClassTranscript.Files.Path
import ClassTranscript.Text.Utf8

/-!
# Hosts

What the commands ask of the system that they run on. The commands are written for any `Host`, so
that they run on a real system as well as on one that is made of data.
-/

namespace ClassTranscript

open Text

/-- What a program that has run leaves behind. -/
structure Finished where
  status : Nat := 0
  stdout : Bytes := []
  stderr : Bytes := []
  deriving DecidableEq, Repr

/-- The operations of a system. -/
class Host (m : Type → Type) where
  /-- All of the standard input. -/
  readInput : m Bytes
  /-- The content of a file. -/
  readFile : Path → m (Except Fault Bytes)
  /-- The files at and below a path, in the order of their names. -/
  walk : Path → m (Except Fault (List Path))
  /-- Makes a directory and those above it, where they are missing. -/
  makeDirectories : Path → m (Except Fault Unit)
  /-- Puts a file in place of what is there. -/
  writeFile : Path → Bytes → m (Except Fault Unit)
  /-- Runs a program with arguments, in a directory other than the current one if one is given. -/
  runProgram : String → List String → Option Path → m (Except Fault Finished)

end ClassTranscript
