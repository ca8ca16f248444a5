/-!
# File system faults

The reasons for which a file system turns an operation down, with the messages and numbers that the
operating system gives them.
-/

namespace ClassTranscript

/-- Why an operation on files failed. -/
inductive Fault where
  | notFound
  | alreadyExists
  | notADirectory
  | isADirectory
  /-- The system does not offer the operation. -/
  | unsupported
  deriving DecidableEq, Repr

/-- The number of a fault. -/
def Fault.code : Fault → Nat
  | notFound => 2
  | alreadyExists => 17
  | notADirectory => 20
  | isADirectory => 21
  | unsupported => 95

/-- What a fault says. -/
def Fault.reason : Fault → String
  | notFound => "No such file or directory"
  | alreadyExists => "File exists"
  | notADirectory => "Not a directory"
  | isADirectory => "Is a directory"
  | unsupported => "Operation not supported"

/-- The message of a fault. -/
def Fault.message (f : Fault) : String :=
  f.reason ++ " (os error " ++ toString f.code ++ ")"

end ClassTranscript
