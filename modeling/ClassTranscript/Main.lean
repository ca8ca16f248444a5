import ClassTranscript.Command.Run

/-!
# The command line program

The host that the program runs on, and `main`. Other programs cannot be started and directories
cannot be listed from here, so a conversion ends with the fault that this is not supported.
-/

namespace ClassTranscript

/-- The fault that an error of the system stands for. -/
def faultOf : IO.Error → Fault
  | .noFileOrDirectory .. => .notFound
  | .alreadyExists .. => .alreadyExists
  | .inappropriateType .. => .isADirectory
  | _ => .unsupported

/-- Does something on the system and keeps the fault if it fails. -/
def attempt {α : Type} (action : IO α) : IO (Except Fault α) :=
  tryCatch (.ok <$> action) fun error => return .error (faultOf error)

instance : Host IO where
  readInput := return (← (← IO.getStdin).readBinToEnd).toList
  readFile path := attempt (return (← IO.FS.readBinFile path.text).toList)
  walk _ := return .error .unsupported
  makeDirectories path := attempt (IO.FS.createDirAll path.text)
  writeFile path content := attempt (IO.FS.writeBinFile path.text ⟨content.toArray⟩)
  runProgram _ _ _ := return .error .unsupported

end ClassTranscript

/-- Does what the arguments ask for, prints the response and gives its exit code. -/
def main (arguments : List String) : IO UInt32 := do
  let terminal := (← (← IO.getStdout).isTty) && (← (← IO.getStderr).isTty)
  let response ← ClassTranscript.runArguments terminal arguments
  (← IO.getStdout).putStr response.stdout
  (← IO.getStderr).putStr response.stderr
  return UInt32.ofNat response.code
