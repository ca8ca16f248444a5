import ClassTranscript.Json

/-!
# Class records

A `ClassRecord` is what a transcript tells about a class: its header, its fields, and its methods,
constructors and static initializers with their debug tables. Names, types and modifiers are kept as
they are printed.
-/

namespace ClassTranscript.Transcript

/-- A row of a line number table: the bytecode at `offset` begins the source line `line`. -/
structure LineNumber where
  line : Nat
  offset : Nat
  deriving DecidableEq, Repr

/-- A row of a local variable table: the variable lives in `slot` for `length` bytes of bytecode
from `start` on. -/
structure LocalVariable where
  start : Nat
  length : Nat
  slot : Nat
  name : String
  /-- The descriptor of its type. -/
  descriptor : String
  deriving DecidableEq, Repr

/-- A field of a class. -/
structure FieldRecord where
  modifiers : List String
  typeName : String
  name : String
  deriving DecidableEq, Repr

/-- What kind of member a signature declares, with the parts that only such a signature has. -/
inductive MemberShape where
  | method (returnType name : String) (parameters throws : List String)
  /-- The name is that of the class. -/
  | constructor (name : String) (parameters throws : List String)
  | staticInitializer
  deriving DecidableEq, Repr

/-- A method, constructor or static initializer with its debug tables. -/
structure MemberRecord where
  shape : MemberShape
  /-- The signature without the semicolon that ends it. -/
  signature : String
  modifiers : List String
  typeParameters : Option String
  lineNumbers : List LineNumber
  localVariables : List LocalVariable
  deriving DecidableEq, Repr

/-- Whether a header declares a class or an interface. -/
inductive TypeKind where
  | classType
  | interfaceType
  deriving DecidableEq, Repr

/-- A class or interface. -/
structure ClassRecord where
  /-- The file that it was compiled from. -/
  sourceFile : String
  kind : TypeKind
  modifiers : List String
  /-- The name with dots between its parts. -/
  name : String
  typeParameters : Option String
  /-- What the header says to be extended. -/
  extended : List String
  /-- What the header says to be implemented. -/
  implemented : List String
  fields : List FieldRecord
  members : List MemberRecord
  deriving DecidableEq, Repr

namespace MemberShape

/-- The name of a member. A static initializer goes by the name that the class file gives it. -/
def name : MemberShape → String
  | method _ name _ _ => name
  | constructor name _ _ => name
  | staticInitializer => "<clinit>"

/-- The types of the parameters. -/
def parameters : MemberShape → List String
  | method _ _ parameters _ => parameters
  | constructor _ parameters _ => parameters
  | staticInitializer => []

/-- The types of the exceptions that are declared to be thrown. -/
def throws : MemberShape → List String
  | method _ _ _ throws => throws
  | constructor _ _ throws => throws
  | staticInitializer => []

/-- The return type of a method. -/
def returnType? : MemberShape → Option String
  | method returnType _ _ _ => some returnType
  | _ => none

end MemberShape

namespace ClassRecord

/-- The name with slashes between its parts. -/
def internalName (r : ClassRecord) : String :=
  r.name.map fun c => if c = '.' then '/' else c

/-- The descriptor of a reference to the class. -/
def descriptor (r : ClassRecord) : String :=
  "L" ++ r.internalName ++ ";"

end ClassRecord

/-! ### Records as documents -/

/-- The field of an object for a part that may be missing. -/
def optionalField (name : String) (value : Option String) : List (String × Json) :=
  value.toList.map fun text => (name, .text text)

/-- A row of a line number table as a document. -/
def LineNumber.toJson (row : LineNumber) : Json :=
  .object [("line", .number row.line), ("offset", .number row.offset)]

/-- A row of a local variable table as a document. -/
def LocalVariable.toJson (row : LocalVariable) : Json :=
  .object
    [("start", .number row.start), ("length", .number row.length), ("slot", .number row.slot),
     ("name", .text row.name), ("descriptor", .text row.descriptor)]

/-- A field as a document. -/
def FieldRecord.toJson (field : FieldRecord) : Json :=
  .object
    [("modifiers", .texts field.modifiers), ("type", .text field.typeName),
     ("name", .text field.name)]

/-- The name of a kind of member in documents. -/
def MemberShape.kindName : MemberShape → String
  | method .. => "method"
  | constructor .. => "constructor"
  | staticInitializer => "static_initializer"

/-- A member as a document. Parts that it does not have are left out, and so are exceptions when
there are none. -/
def MemberRecord.toJson (member : MemberRecord) : Json :=
  let shape := member.shape
  .object
    ([("kind", .text shape.kindName), ("signature", .text member.signature),
      ("name", .text shape.name), ("modifiers", .texts member.modifiers)]
      ++ optionalField "type_parameters" member.typeParameters
      ++ optionalField "return_type" shape.returnType?
      ++ [("parameters", .texts shape.parameters)]
      ++ (if shape.throws.isEmpty then [] else [("throws", .texts shape.throws)])
      ++ [("line_numbers", .array (member.lineNumbers.map LineNumber.toJson)),
          ("local_variables", .array (member.localVariables.map LocalVariable.toJson))])

/-- The name of a kind of type in documents. -/
def TypeKind.name : TypeKind → String
  | classType => "class"
  | interfaceType => "interface"

/-- A record as a document. -/
def ClassRecord.toJson (r : ClassRecord) : Json :=
  .object
    ([("source_file", .text r.sourceFile), ("kind", .text r.kind.name),
      ("modifiers", .texts r.modifiers), ("name", .text r.name),
      ("internal_name", .text r.internalName)]
      ++ optionalField "type_parameters" r.typeParameters
      ++ [("extends", .texts r.extended), ("implements", .texts r.implemented),
          ("fields", .array (r.fields.map FieldRecord.toJson)),
          ("members", .array (r.members.map MemberRecord.toJson))])

end ClassTranscript.Transcript
