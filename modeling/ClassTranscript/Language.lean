import ClassTranscript.Transcript.Grammar

/-!
# The languages that can be parsed

A `Language` is one of the grammars of this library, known to its users by a name.
-/

namespace ClassTranscript

open Peg

/-- A language with a grammar. -/
inductive Language where
  | java
  | transcript
  deriving DecidableEq, Repr

namespace Language

/-- The name of a language. -/
def name : Language → String
  | java => "java"
  | transcript => "javap"

/-- The grammar of a language. -/
def grammar : Language → Grammar
  | java => Java.grammar
  | transcript => Transcript.grammar

/-- The language of a name, which may be written in capital letters too. -/
def ofName? (name : String) : Option Language :=
  [java, transcript].find? (·.name == name.toLower)

end Language

end ClassTranscript
