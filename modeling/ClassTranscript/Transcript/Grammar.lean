import ClassTranscript.Java.Grammar

/-!
# The grammar of disassembler transcripts

A transcript shows one class: a line that names the source file, the header of the class, and for
each member a signature line, a line number table and a local variable table, each closed by a blank
line. Modifiers, type names and type parameters are those of Java. The tokens of Java skip line ends
with other spacing, so what may stand at the end of a line has a rule of its own here.

```text
Compiled from "Greeter.java"
public class demo.Greeter extends java.lang.Object{
public demo.Greeter();
  LineNumberTable:
   line 3: 0

  LocalVariableTable:
   Start  Length  Slot  Name   Signature
   0      5      0    this       Ldemo/Greeter;


}
```
-/

namespace ClassTranscript.Transcript

open Peg Peg.Expr

/-- The rule that matches a whole transcript. -/
def rootName : String :=
  "JavapOutput"

/-- Line ends and the spaces inside a line. -/
def layout : List Definition :=
  [{ name := "Newline", body := .choice ["\r\n", '\r', '\n'], hidden := true },
   { name := "InlineSpacing", body := .star (oneOf " \t"), hidden := true },
   { name := "RowSpacing", body := .plus (oneOf " \t"), hidden := true }]

/-- The whole transcript, and the line that names the source file. -/
def document : List Definition :=
  [{ name := "JavapOutput"
     body :=
       .seq
         [.rule "SourceHeader", .rule "ClassHeader", '\x7b', .rule "Newline",
          .plus (.rule "JavapMember"), .star (.rule "JavapField"), '\x7d',
          .star (.rule "Newline"), .endOfInput] },
   { name := "SourceHeader"
     body := .seq ["Compiled from ", .rule "SourceFile", .rule "Newline"] },
   { name := "SourceFile", body := .rule "StringLiteral" }]

/-- The line that names the class, its superclass and its interfaces. -/
def classHeader : List Definition :=
  [{ name := "ClassHeader"
     body :=
       .seq
         [.star (.rule "Modifier"), .rule "TypeKind", .rule "JavapQualifiedIdentifier",
          .optional (.rule "TypeParameters"), .optional (.rule "ExtendsClause"),
          .optional (.rule "ImplementsClause")] },
   { name := "TypeKind", body := .choice (rules ["CLASS", "INTERFACE"]), leaf := true },
   { name := "ExtendsClause", body := .seq (rules ["EXTENDS", "JavapTypeList"]) },
   { name := "ImplementsClause", body := .seq (rules ["IMPLEMENTS", "JavapTypeList"]) },
   { name := "JavapTypeList"
     body := .seq (separated (.rule "JavapClassType") (.rule "COMMA")) },
   { name := "JavapClassType"
     body := .seq [.rule "JavapQualifiedIdentifier", .optional (.rule "TypeArguments")]
     leaf := true
     memo := .all },
   { name := "JavapQualifiedIdentifier"
     body := .seq (separated (.rule "JavapIdentifier") (.rule "DOT"))
     leaf := true },
   { name := "JavapIdentifier"
     body :=
       .seq
         [.notAhead (.rule "Keyword"), .rule "Letter", .star (.rule "LetterOrDigit"),
          .rule "InlineSpacing"]
     leaf := true
     memo := .mismatches }]

/-- Fields and the signature lines of methods, constructors and static initializers. -/
def members : List Definition :=
  [{ name := "JavapMember"
     body :=
       .seq
         [.star (.rule "JavapField"), .rule "MemberSignature", .rule "LineNumberTable",
          .rule "LocalVariableTable", .rule "Newline"] },
   { name := "JavapField"
     body :=
       .seq
         [.star (.rule "Modifier"), .rule "JavapType", .rule "JavapIdentifier", ';',
          .rule "InlineSpacing", .rule "Newline", .optional (.rule "Newline")] },
   { name := "MemberSignature"
     body :=
       .seq
         [.star (.rule "Modifier"), .optional (.rule "TypeParameters"),
          .choice (rules ["MethodSignature", "ConstructorSignature", "StaticInitializer"]), ';',
          .rule "InlineSpacing", .rule "Newline"] },
   { name := "MethodSignature"
     body :=
       .seq
         [.rule "ResultType", .rule "JavapIdentifier", .rule "JavapParameters",
          .optional (.rule "ThrowsClause")] },
   { name := "ResultType", body := .choice (rules ["VOID", "JavapType"]), leaf := true },
   { name := "ConstructorSignature"
     body :=
       .seq
         [.rule "JavapQualifiedIdentifier", .rule "JavapParameters",
          .optional (.rule "ThrowsClause")] },
   { name := "StaticInitializer", body := .seq ['\x7b', .rule "InlineSpacing", '\x7d'] },
   { name := "JavapParameters"
     body :=
       .seq
         [.rule "LPAR", .optional (.seq (separated (.rule "JavapParameter") (.rule "COMMA"))),
          .rule "RPAR"] },
   { name := "JavapParameter"
     body := .seq [.rule "JavapType", .optional (.rule "ELLIPSIS")]
     leaf := true },
   { name := "JavapType"
     body := .seq [.choice (rules ["BasicType", "JavapClassType"]), .star (.rule "Dim")]
     leaf := true
     memo := .all },
   { name := "ThrowsClause", body := .seq (rules ["THROWS", "JavapTypeList"]) }]

/-- The line number table and the local variable table of a member. -/
def tables : List Definition :=
  [{ name := "LineNumberTable"
     body :=
       .seq
         [.rule "InlineSpacing", "LineNumberTable:", .rule "InlineSpacing", .rule "Newline",
          .plus (.rule "LineNumberRow"), .rule "Newline"] },
   { name := "LineNumberRow"
     body :=
       .seq
         [.rule "RowSpacing", "line", .rule "RowSpacing", .rule "DecimalNumeral", ':',
          .rule "RowSpacing", .rule "DecimalNumeral", .rule "InlineSpacing", .rule "Newline"] },
   { name := "LocalVariableTable"
     body :=
       .seq
         [.rule "InlineSpacing", "LocalVariableTable:", .rule "InlineSpacing", .rule "Newline",
          .rule "LocalVariableColumns", .plus (.rule "LocalVariableRow"), .rule "Newline"] },
   { name := "LocalVariableColumns"
     body :=
       .seq
         [.rule "RowSpacing", "Start", .rule "RowSpacing", "Length", .rule "RowSpacing", "Slot",
          .rule "RowSpacing", "Name", .rule "RowSpacing", "Signature", .rule "InlineSpacing",
          .rule "Newline"]
     hidden := true },
   { name := "LocalVariableRow"
     body :=
       .seq (rules ["RowSpacing", "DecimalNumeral", "RowSpacing", "DecimalNumeral",
                    "RowSpacing", "DecimalNumeral", "RowSpacing", "LocalName", "RowSpacing",
                    "FieldDescriptor", "InlineSpacing", "Newline"]) },
   { name := "LocalName"
     body :=
       .choice
         [.seq ["this", .notAhead (.rule "LetterOrDigit")],
          .seq [.notAhead (.rule "Keyword"), .rule "Letter", .star (.rule "LetterOrDigit")]]
     leaf := true }]

/-- Descriptors of the types of variables. -/
def descriptors : List Definition :=
  [{ name := "FieldDescriptor"
     body := .choice (rules ["BaseDescriptor", "ObjectDescriptor", "ArrayDescriptor"]) },
   { name := "BaseDescriptor", body := oneOf "BCDFIJSZ" },
   { name := "ObjectDescriptor", body := .seq ['L', .rule "InternalName", ';'] },
   { name := "InternalName", body := .plus (noneOf ";\r\n") },
   { name := "ArrayDescriptor", body := .seq ['[', .rule "FieldDescriptor"] }]

/-- The definitions for transcripts, in the order in which the rules are numbered. -/
def definitions : List Definition :=
  layout ++ document ++ classHeader ++ members ++ tables ++ descriptors

/-- The draft of the grammar: the definitions of Java and those for transcripts after them. -/
def draft : Draft :=
  (Java.draft.defineAll definitions).withRoot rootName

/-- The grammar of transcripts. -/
def grammar : Grammar :=
  draft.buildD

end ClassTranscript.Transcript
