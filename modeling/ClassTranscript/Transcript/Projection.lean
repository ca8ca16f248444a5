import ClassTranscript.Java.StringEscape
import ClassTranscript.Peg.Tree
import ClassTranscript.Text.Blank
import ClassTranscript.Transcript.Record

/-!
# Records from parse trees

`ClassRecord.ofTree` reads a record off the parse tree of a transcript and the parsed text. Parts
are looked up by the labels of their nodes and their text is taken without the spacing around it. A
tree of another grammar has no record, and neither has one with a number that is too large; of
several faults the first is reported: those of the headers, then those of the fields, then those of
the members, each in the order of the text.
-/

namespace ClassTranscript.Transcript

open Peg

/-- What a number in a debug table counts. -/
inductive Quantity where
  | lineNumber
  | bytecodeOffset
  | startOffset
  | length
  | slot
  deriving DecidableEq, Repr

/-- The name of what a number counts. -/
def Quantity.name : Quantity → String
  | lineNumber => "line number"
  | bytecodeOffset => "bytecode offset"
  | startOffset => "start offset"
  | length => "length"
  | slot => "slot"

/-- Why a tree has no record. -/
inductive ProjectionError where
  | missingNode (label : String)
  /-- The text covered by a span is not an unsigned numeral of 32 bits. -/
  | invalidNumber (text : String) (span : Span) (quantity : Quantity)
  deriving DecidableEq, Repr

/-- The message of an error. -/
def ProjectionError.message : ProjectionError → String
  | missingNode label => "parse tree has no \x60" ++ label ++ "\x60 node"
  | invalidNumber text span quantity =>
    "\x60" ++ text ++ "\x60 at " ++ toString span ++ " is not a valid " ++ quantity.name

abbrev Projected (α : Type) : Type :=
  Except ProjectionError α

/-- A part that must be there. The label says what is looked for. -/
def required (label : String) (node : Option Node) : Projected Node :=
  match node with
  | some node => .ok node
  | none => .error (.missingNode label)

/-- The first child with a label. -/
def requiredChild (node : Node) (label : String) : Projected Node :=
  required label (node.child? label)

/-- The text of a node without the spacing around it. -/
def textOf (source : String) (node : Node) : String :=
  Text.trim (node.text source)

/-- The text of the first child with a label. -/
def childText (source : String) (node : Node) (label : String) : Projected String :=
  (requiredChild node label).map (textOf source)

/-- The text of the first child with a label, if there is one. -/
def childText? (source : String) (node : Node) (label : String) : Option String :=
  (node.child? label).map (textOf source)

/-- The texts of the children with a label. -/
def childTexts (source : String) (node : Node) (label : String) : List String :=
  (node.childrenLabeled label).map (textOf source)

/-- The type names listed in a clause of a node. Without the clause there are none. -/
def clauseTypes (source : String) (node : Node) (clause : String) : List String :=
  match (node.child? clause).bind (·.child? "JavapTypeList") with
  | some list => childTexts source list "JavapClassType"
  | none => []

/-! ### Debug tables -/

/-- The number that a node covers. -/
def number (source : String) (quantity : Quantity) (node : Node) : Projected Nat :=
  let text := textOf source node
  match Text.numeral? 10 UInt32.size text.toList with
  | some n => .ok n
  | none => .error (.invalidNumber text node.span quantity)

/-- The number at a place among the numbers of a row. -/
def rowNumber (source : String) (row : Node) (place : Nat) (quantity : Quantity) :
    Projected Nat :=
  required "DecimalNumeral" (row.childrenLabeled "DecimalNumeral")[place]?
    >>= number source quantity

/-- A row of a line number table. -/
def lineNumber (source : String) (row : Node) : Projected LineNumber := do
  let line ← rowNumber source row 0 .lineNumber
  let offset ← rowNumber source row 1 .bytecodeOffset
  return { line, offset }

/-- A row of a local variable table. -/
def localVariable (source : String) (row : Node) : Projected LocalVariable := do
  let start ← rowNumber source row 0 .startOffset
  let length ← rowNumber source row 1 .length
  let slot ← rowNumber source row 2 .slot
  let name ← childText source row "LocalName"
  let descriptor ← childText source row "FieldDescriptor"
  return { start, length, slot, name, descriptor }

/-- The rows of a table of a member. -/
def tableRows (member : Node) (table row : String) : Projected (List Node) :=
  (requiredChild member table).map (·.childrenLabeled row)

/-! ### Members -/

/-- A field. -/
def field (source : String) (node : Node) : Projected FieldRecord := do
  let typeName ← childText source node "JavapType"
  let name ← childText source node "JavapIdentifier"
  return { modifiers := childTexts source node "Modifier", typeName, name }

/-- The types of the parameters in a signature. -/
def parameterTypes (source : String) (signature : Node) : Projected (List String) :=
  (requiredChild signature "JavapParameters").map (childTexts source · "JavapParameter")

/-- What the signature of a member declares. -/
def memberShape (source : String) (signature : Node) : Projected MemberShape := do
  match signature.child? "MethodSignature", signature.child? "ConstructorSignature" with
  | some method, _ =>
    let name ← childText source method "JavapIdentifier"
    let returnType ← childText source method "ResultType"
    let parameters ← parameterTypes source method
    return .method returnType name parameters (clauseTypes source method "ThrowsClause")
  | none, some constructor =>
    let name ← childText source constructor "JavapQualifiedIdentifier"
    let parameters ← parameterTypes source constructor
    return .constructor name parameters (clauseTypes source constructor "ThrowsClause")
  | none, none =>
    let _ ← requiredChild signature "StaticInitializer"
    return .staticInitializer

/-- The text of a signature without the semicolons at its end. -/
def signatureText (source : String) (signature : Node) : String :=
  Text.trimEnd
    (String.ofList (Text.dropEndWhile (· == ';') (textOf source signature).toList))

/-- A member. -/
def member (source : String) (node : Node) : Projected MemberRecord := do
  let signature ← requiredChild node "MemberSignature"
  let shape ← memberShape source signature
  let lineRows ← tableRows node "LineNumberTable" "LineNumberRow"
  let lineNumbers ← lineRows.mapM (lineNumber source)
  let variableRows ← tableRows node "LocalVariableTable" "LocalVariableRow"
  let localVariables ← variableRows.mapM (localVariable source)
  return {
    shape
    signature := signatureText source signature
    modifiers := childTexts source signature "Modifier"
    typeParameters := childText? source signature "TypeParameters"
    lineNumbers
    localVariables }

/-! ### Classes -/

/-- The kind that a word of the class header names. -/
def typeKind (word : String) : TypeKind :=
  if word = "interface" then .interfaceType else .classType

/-- The record of the class whose transcript the tree below `root` is. -/
def classRecord (source : String) (root : Node) : Projected ClassRecord := do
  let sourceHeader ← requiredChild root "SourceHeader"
  let sourceFile ← required "StringLiteral" (sourceHeader.first? "StringLiteral")
  let header ← requiredChild root "ClassHeader"
  let kind ← childText source header "TypeKind"
  let name ← childText source header "JavapQualifiedIdentifier"
  let fields ← (root.findAll "JavapField").mapM (field source)
  let members ← (root.childrenLabeled "JavapMember").mapM (member source)
  return {
    sourceFile := Java.literalText (textOf source sourceFile)
    kind := typeKind kind
    modifiers := childTexts source header "Modifier"
    name
    typeParameters := childText? source header "TypeParameters"
    extended := clauseTypes source header "ExtendsClause"
    implemented := clauseTypes source header "ImplementsClause"
    fields
    members }

/-- The record of the class whose transcript a tree is, given the parsed text. -/
def ClassRecord.ofTree (source : String) (tree : Tree) : Projected ClassRecord :=
  classRecord source tree.root

end ClassTranscript.Transcript
