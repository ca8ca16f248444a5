import ClassTranscript.Command.Inspection

/-!
# Converting classes

`convertClasses` disassembles every class file below a directory, one after the other, and writes
the record of each class whose transcript can be read; the others are skipped with a warning. A
record is written at the place of its class file below another directory. Whatever else goes wrong
ends the conversion, and what has been written until then stays.
-/

namespace ClassTranscript

open Peg Transcript

/-- What ends a conversion. -/
inductive ConversionError where
  /-- The class files cannot be listed. -/
  | walk (path : Path) (fault : Fault)
  /-- The disassembler cannot be run. -/
  | program (name : String) (fault : Fault)
  /-- The disassembler fails on a class. -/
  | disassembly (command className : String) (status : Nat) (complaint : String)
  | write (path : Path) (fault : Fault)
  deriving DecidableEq, Repr

/-- The message of an error. -/
def ConversionError.message : ConversionError → String
  | walk path fault =>
    "failed to walk class directory: IO error for operation on " ++ path.text ++ ": "
      ++ fault.message
  | program name fault => "failed to run '" ++ name ++ "': " ++ fault.message
  | disassembly command className status complaint =>
    "'" ++ command ++ " -l " ++ className ++ "' exited with exit status: " ++ toString status
      ++ ": " ++ complaint
  | write path fault => "failed to write '" ++ path.text ++ "': " ++ fault.message

/-- Whether a path is that of a class file. -/
def isClassFile (path : Path) : Bool :=
  path.extension? == some "class"

/-- Where the record of a class file goes. A class file that is not below the directory that is
searched keeps its whole path. -/
def outputPath (classes classFile output : Path) : Path :=
  (output.join ((classFile.relativeTo? classes).getD classFile)).withExtension "json"

/-- A line that says why a transcript gives no record. -/
def reasonOf (transcript : String) : ReadingError → String
  | .mismatch mismatch => mismatch.summary transcript
  | .projection error => error.message

/-- The record that a transcript gives, or a line that says why there is none. -/
def recordOrReason (transcript : String) : Except String ClassRecord :=
  (ClassRecord.ofTranscript transcript).mapError (reasonOf transcript)

/-- The text of the file that holds a record. -/
def recordText (r : ClassRecord) : String :=
  r.toJson.pretty ++ "\n"

/-! ### One class -/

section

variable {m : Type → Type} [Monad m] [Host m]

/-- The class files below a directory. -/
def classFiles (classes : Path) : m (Except ConversionError (List Path)) := do
  match ← Host.walk classes with
  | .ok paths => return .ok (paths.filter isClassFile)
  | .error fault => return .error (.walk classes fault)

/-- The transcript that the disassembler prints of a class. It runs in the directory of the class
file. -/
def disassemble (program : String) (classFile : Path) : m (Except ConversionError String) := do
  let className := classFile.stem?.getD ""
  let directory := classFile.parent?.filter (·.text != "")
  match ← Host.runProgram program ["-l", className] directory with
  | .error fault => return .error (.program program fault)
  | .ok finished =>
    if finished.status ≠ 0 then
      let complaint := Text.trim (Text.decodeLossy finished.stderr)
      return .error (.disassembly program className finished.status complaint)
    else return .ok (Text.decodeLossy finished.stdout)

/-- Writes a record, with the directories that are missing above it. -/
def saveRecord (target : Path) (r : ClassRecord) : m (Except ConversionError Unit) := do
  let directory := target.parent?.getD ⟨""⟩
  match ← Host.makeDirectories directory with
  | .error fault => return .error (.write directory fault)
  | .ok () =>
    match ← Host.writeFile target (Text.encode (recordText r)) with
    | .error fault => return .error (.write target fault)
    | .ok () => return .ok ()

/-- What became of a class. -/
inductive Converted where
  | written
  | skipped (reason : String)
  deriving DecidableEq, Repr

/-- Writes the record that was read, or tells why there is none. -/
def saveReading (target : Path) : Except String ClassRecord → m (Except ConversionError Converted)
  | .error reason => return .ok (.skipped reason)
  | .ok r => do
    match ← saveRecord target r with
    | .error error => return .error error
    | .ok () => return .ok .written

/-- Converts one class. -/
def convertClass (o : ConversionOptions) (classFile : Path) :
    m (Except ConversionError Converted) := do
  match ← disassemble o.program classFile with
  | .error error => return .error error
  | .ok transcript =>
    saveReading (outputPath o.classes classFile o.output) (recordOrReason transcript)

end

/-! ### All classes -/

/-- How far a conversion has come. -/
structure Tally where
  written : Nat := 0
  /-- The classes that were skipped and the reasons, the latest first. -/
  skipped : List (Path × String) := []
  deriving DecidableEq, Repr

/-- The tally after one more class. -/
def Tally.add (t : Tally) (classFile : Path) : Converted → Tally
  | .written => { t with written := t.written + 1 }
  | .skipped reason => { t with skipped := (classFile, reason) :: t.skipped }

section

variable {m : Type → Type} [Monad m] [Host m]

/-- Converts class files one after the other until one of them ends the conversion. -/
def convertEach (o : ConversionOptions) :
    Tally → List Path → m (Tally × Option ConversionError)
  | tally, [] => return (tally, none)
  | tally, classFile :: classFiles => do
    match ← convertClass o classFile with
    | .error error => return (tally, some error)
    | .ok converted => convertEach o (tally.add classFile converted) classFiles

/-- Converts the class files below a directory. -/
def convertClasses (o : ConversionOptions) : m (Tally × Option ConversionError) := do
  match ← classFiles o.classes with
  | .error error => return ({}, some error)
  | .ok paths => convertEach o {} paths

end

/-- The warning about a class that was skipped. -/
def skipWarning (palette : Palette) (classFile : Path) (reason : String) : String :=
  palette.paint palette.yellow "warning" ++ ": skipping " ++ classFile.text ++ ": " ++ reason
    ++ "\n"

/-- The response to a conversion. -/
def conversionResponse (colored : Bool) (tally : Tally) (error : Option ConversionError) :
    Response :=
  let warning := fun (classFile, reason) => skipWarning (.ofBool colored) classFile reason
  let warnings := String.join (tally.skipped.reverse.map warning)
  match error with
  | some error => { code := 1, stderr := warnings ++ "error: " ++ error.message ++ "\n" }
  | none =>
    { stderr :=
        warnings ++ "converted " ++ toString tally.written ++ " classes, skipped "
          ++ toString tally.skipped.length ++ "\n" }

end ClassTranscript
