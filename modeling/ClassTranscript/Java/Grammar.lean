import ClassTranscript.Java.Declaration
import ClassTranscript.Java.Expression
import ClassTranscript.Java.Literal
import ClassTranscript.Java.Statement
import ClassTranscript.Java.TypeName

/-!
# The grammar of Java

The grammar of Java 6: the syntax of the language arranged for ordered choice.
-/

namespace ClassTranscript.Java

open Peg

/-- The rule that matches a whole source file. -/
def rootName : String :=
  "CompilationUnit"

/-- All definitions, in the order in which the rules are numbered. -/
def definitions : List Definition :=
  spacing ++ identifiers ++ keywordRules ++ literals ++ operatorRules ++ typeNames
    ++ precedenceLevels ++ primaries ++ creators ++ statements ++ compilationUnits
    ++ classDeclarations ++ interfaceDeclarations ++ enumDeclarations ++ variableDeclarations
    ++ parameterDeclarations ++ annotationRules

/-- The draft of the grammar. -/
def draft : Draft :=
  (Draft.defineAll {} definitions).withRoot rootName

/-- The grammar of Java. -/
def grammar : Grammar :=
  draft.buildD

end ClassTranscript.Java
