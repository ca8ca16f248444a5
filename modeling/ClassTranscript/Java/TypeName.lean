import ClassTranscript.Java.Token

/-!
# Types and modifiers of Java

Basic types, class types with their arguments, array dimensions, type parameters, and the one list
of modifiers that every kind of declaration takes.
-/

namespace ClassTranscript.Java

open Peg Peg.Expr

/-- The names of the basic types. -/
def basicTypes : List String :=
  ["byte", "short", "char", "int", "long", "float", "double", "boolean"]

/-- The modifiers that are words. -/
def modifiers : List String :=
  ["public", "protected", "private", "static", "abstract", "final", "native", "synchronized",
   "transient", "volatile", "strictfp"]

/-- Types and modifiers. -/
def typeNames : List Definition :=
  [{ name := "Type"
     body := .seq [.choice (rules ["BasicType", "ClassType"]), .star (.rule "Dim")]
     memo := .all },
   { name := "ReferenceType"
     body :=
       .choice
         [.seq [.rule "BasicType", .plus (.rule "Dim")],
          .seq [.rule "ClassType", .star (.rule "Dim")]] },
   { name := "ClassType"
     body :=
       .seq
         [.rule "Identifier", .optional (.rule "TypeArguments"),
          .star (.seq [.rule "DOT", .rule "Identifier", .optional (.rule "TypeArguments")])] },
   { name := "ClassTypeList", body := .seq (separated (.rule "ClassType") (.rule "COMMA")) },
   { name := "TypeArguments"
     body :=
       .seq
         [.rule "LPOINT", .rule "TypeArgument", .star (.seq (rules ["COMMA", "TypeArgument"])),
          .rule "RPOINT"] },
   { name := "TypeArgument"
     body :=
       .choice
         [.rule "ReferenceType",
          .seq
            [.rule "QUERY",
             .optional (.seq [.choice (rules ["EXTENDS", "SUPER"]), .rule "ReferenceType"])]] },
   { name := "TypeParameters"
     body :=
       .seq
         [.rule "LPOINT", .rule "TypeParameter",
          .star (.seq (rules ["COMMA", "TypeParameter"])), .rule "RPOINT"] },
   { name := "TypeParameter"
     body := .seq [.rule "Identifier", .optional (.seq (rules ["EXTENDS", "Bound"]))] },
   { name := "Bound", body := .seq (separated (.rule "ClassType") (.rule "AND")) },
   { name := "BasicType"
     body := .seq [words basicTypes, .notAhead (.rule "LetterOrDigit"), .rule "Spacing"]
     memo := .mismatches },
   { name := "Modifier"
     body :=
       .choice
         [.rule "Annotation",
          .seq [words modifiers, .notAhead (.rule "LetterOrDigit"), .rule "Spacing"]] },
   { name := "QualifiedIdentifier"
     body := .seq (separated (.rule "Identifier") (.rule "DOT")) },
   { name := "Dim", body := .seq (rules ["LBRK", "RBRK"]) },
   { name := "DimExpr", body := .seq (rules ["LBRK", "Expression", "RBRK"]) }]

end ClassTranscript.Java
