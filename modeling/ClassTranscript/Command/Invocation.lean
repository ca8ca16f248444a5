import ClassTranscript.Files.Path
import ClassTranscript.Language
import ClassTranscript.Peg.Trace

/-!
# Invocations

What the program can be asked to do: parse a text, trace a parse, show a grammar, or convert the
classes in a directory.
-/

namespace ClassTranscript

/-- When output is coloured. -/
inductive ColorChoice where
  /-- On a terminal. -/
  | auto
  | always
  | never
  deriving DecidableEq, Repr

namespace ColorChoice

/-- The word for a choice. -/
def name : ColorChoice → String
  | auto => "auto"
  | always => "always"
  | never => "never"

/-- The choice of a word. -/
def ofName? (word : String) : Option ColorChoice :=
  [auto, always, never].find? (·.name == word)

/-- Whether output is coloured, as far as the choice alone decides it. -/
def decided? : ColorChoice → Option Bool
  | auto => none
  | always => some true
  | never => some false

/-- Whether output is coloured, given whether it goes to a terminal. -/
def colored (choice : ColorChoice) (terminal : Bool) : Bool :=
  choice.decided?.getD terminal

end ColorChoice

/-- What is parsed, and how. -/
structure InputOptions where
  /-- The file to read. A single dash stands for the standard input. -/
  sourcePath : Option Path := none
  /-- A text given in place of a file. -/
  sourceText : Option String := none
  language : Language := .transcript
  /-- The rule to match. Without one it is the root of the grammar. -/
  rule : Option String := none
  /-- The limit on steps. -/
  fuel : Nat := 10000000
  memoize : Bool := true
  deriving DecidableEq, Repr

/-- Whether a whole transcript is parsed, so that it shows a class. -/
def InputOptions.wantsTranscript (o : InputOptions) : Bool :=
  o.language = .transcript ∧ o.rule = none

/-- Which classes are converted, and how. -/
structure ConversionOptions where
  /-- The directory that is searched for class files. -/
  classes : Path
  /-- The directory that receives the records. -/
  output : Path
  /-- The disassembler. -/
  program : String := "javap"
  deriving DecidableEq, Repr

/-- What the program is asked to do. -/
inductive Invocation where
  | parse (input : InputOptions) (json : Bool) (color : ColorChoice)
  | trace (input : InputOptions) (verbosity : Peg.Verbosity) (color : ColorChoice)
  | grammar (language : Language) (json : Bool)
  | convert (options : ConversionOptions) (color : ColorChoice)
  deriving DecidableEq, Repr

end ClassTranscript
