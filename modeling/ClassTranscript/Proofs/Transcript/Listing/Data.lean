import ClassTranscript.Java.TypeName
import ClassTranscript.Transcript.Record

/-!
# Listings of classes

A `Listing` is what there is to print about a class: its headers, its fields, and its members with
their tables. Names, types and numbers carry with them that they are written the plain way.
`Listing.print` writes a listing the way transcripts are laid out, and `Listing.record` is the
record of the class. A `Style` gives the widths of the gaps; the usual one is that of `Style.usual`.
-/

namespace ClassTranscript.Transcript

/-- What is said of the characters of a list is decided along the list. Any other way would go
through all the characters there are. -/
instance (priority := high) decidableForallMem {p : Char → Prop} [DecidablePred p]
    (cs : List Char) : Decidable (∀ c ∈ cs, p c) :=
  List.decidableBAll p cs

/-! ### Names and types -/

/-- Whether a character may begin a plain identifier. -/
def isPlainLetter (c : Char) : Bool :=
  ('a' ≤ c && c ≤ 'z') || ('A' ≤ c && c ≤ 'Z') || c == '_' || c == '$'

/-- Whether a character may stand inside a plain identifier. -/
def isPlainPart (c : Char) : Bool :=
  isPlainLetter c || ('0' ≤ c && c ≤ '9')

/-- The words that are no plain identifiers. -/
def reservedWords : List String :=
  Java.keywords ++ Java.modifiers ++ Java.basicTypes

/-- An identifier of letters, digits, underscores and dollar signs. -/
structure PlainName where
  first : Char
  others : List Char
  first_plain : isPlainLetter first = true
  others_plain : ∀ c ∈ others, isPlainPart c = true
  not_reserved : String.ofList (first :: others) ∉ reservedWords

/-- The characters of an identifier. -/
def PlainName.chars (n : PlainName) : List Char :=
  n.first :: n.others

/-- Plain identifiers with dots between them. -/
structure DottedName where
  first : PlainName
  others : List PlainName

/-- The characters of a dotted name. -/
def DottedName.chars (n : DottedName) : List Char :=
  n.first.chars ++ n.others.flatMap fun part => '.' :: part.chars

/-- A modifier that is a word. -/
structure ModifierWord where
  word : String
  listed : word ∈ Java.modifiers

/-- A type that is no array. -/
inductive ElementType where
  | basic (word : String) (listed : word ∈ Java.basicTypes)
  | named (name : DottedName)

/-- The characters of a type that is no array. -/
def ElementType.chars : ElementType → List Char
  | basic word _ => word.toList
  | named name => name.chars

/-- A type with its number of array dimensions. -/
structure ListedType where
  element : ElementType
  dims : Nat

/-- The characters of a type. -/
def ListedType.chars (t : ListedType) : List Char :=
  t.element.chars ++ (List.replicate t.dims ['[', ']']).flatten

/-! ### Fields and signatures -/

/-- A field. -/
structure ListedField where
  modifiers : List ModifierWord
  type : ListedType
  name : PlainName

/-- What a signature declares. A method without a result type is `void`. -/
inductive ListedShape where
  | method (result : Option ListedType) (name : PlainName) (parameters : List ListedType)
    (throws : List DottedName)
  | constructor (name : DottedName) (parameters : List ListedType) (throws : List DottedName)
  | staticInitializer

/-! ### Tables -/

/-- A row of a line number table. -/
structure LineRow where
  line : UInt32
  offset : UInt32

/-- The name of a local variable. -/
inductive LocalName where
  | this
  | plain (name : PlainName)

/-- The characters of the name of a local variable. -/
def LocalName.chars : LocalName → List Char
  | this => "this".toList
  | plain name => name.chars

/-- The descriptor of a type that is no array. -/
inductive ElementDescriptor where
  | basic (letter : Char) (listed : letter ∈ "BCDFIJSZ".toList)
  | object (name : List Char) (nonempty : name ≠ []) (plain : ∀ c ∈ name, c ∉ ";\r\n".toList)

/-- The descriptor of a type, with its number of array dimensions. -/
structure ListedDescriptor where
  dims : Nat
  element : ElementDescriptor

/-- The characters of a descriptor. -/
def ElementDescriptor.chars : ElementDescriptor → List Char
  | basic letter _ => [letter]
  | object name _ _ => 'L' :: (name ++ [';'])

/-- The characters of a descriptor. -/
def ListedDescriptor.chars (d : ListedDescriptor) : List Char :=
  List.replicate d.dims '[' ++ d.element.chars

/-- A row of a local variable table. -/
structure VariableRow where
  start : UInt32
  length : UInt32
  slot : UInt32
  name : LocalName
  descriptor : ListedDescriptor

/-! ### Members and classes -/

/-- A member, with the fields that are listed before it. -/
structure ListedMember where
  fields : List ListedField
  modifiers : List ModifierWord
  shape : ListedShape
  lines : List LineRow
  lines_nonempty : lines ≠ []
  locals : List VariableRow
  locals_nonempty : locals ≠ []

/-- What there is to print about a class. The fields are those listed after the last member. -/
structure Listing where
  sourceFile : List Char
  sourceFile_plain : ∀ c ∈ sourceFile, c ∉ "\"\\\r\n".toList
  kind : TypeKind
  modifiers : List ModifierWord
  name : DottedName
  extended : List DottedName
  implemented : List DottedName
  members : List ListedMember
  members_nonempty : members ≠ []
  fields : List ListedField

/-! ### Printing -/

/-- The widths of gaps in a transcript. Where at least one space is needed the number is that of
further spaces. -/
structure Style where
  /-- After a comma. -/
  comma : Nat
  /-- Before the word for exceptions, beyond one. -/
  throws : Nat
  /-- Before the title of a table. -/
  title : Nat
  /-- After the title of a table. -/
  titleEnd : Nat
  /-- Before a row, beyond one. -/
  row : Nat
  /-- Between the headings of the columns for variables, beyond one. -/
  headings : Nat × Nat × Nat × Nat
  /-- Between the entries of a row for a variable, beyond one. -/
  entries : Nat × Nat × Nat × Nat

/-- Single spaces between words, and the columns that transcripts have. -/
def Style.usual : Style where
  comma := 1
  throws := 0
  title := 2
  titleEnd := 0
  row := 2
  headings := (1, 1, 1, 2)
  entries := (5, 5, 3, 6)

/-- Some spaces. -/
def spaces (n : Nat) : List Char :=
  List.replicate n ' '

/-- One space and some further ones. -/
def gap (n : Nat) : List Char :=
  spaces (n + 1)

/-- Modifiers, with a space after each. -/
def printModifiers (ms : List ModifierWord) : List Char :=
  ms.flatMap fun m => m.word.toList ++ [' ']

/-- Items with commas between them. -/
def printSeparated (comma : Nat) : List (List Char) → List Char
  | [] => []
  | item :: items => item ++ items.flatMap fun next => ',' :: (spaces comma ++ next)

/-- Where there are names, a gap, a word and the names. The number is that of the spaces in the gap
beyond one. -/
def printClause (s : Style) (before : Nat) (word : String) : List DottedName → List Char
  | [] => []
  | names => gap before ++ (word.toList ++ ' ' :: printSeparated s.comma (names.map (·.chars)))

/-- Parameters in parentheses. -/
def printParameters (s : Style) (parameters : List ListedType) : List Char :=
  '(' :: (printSeparated s.comma (parameters.map (·.chars)) ++ [')'])

/-- The parameters and the exceptions of a signature. -/
def printTail (s : Style) (parameters : List ListedType) (throws : List DottedName) : List Char :=
  printParameters s parameters ++ printClause s s.throws "throws" throws

/-- The type of the result of a method. -/
def resultChars : Option ListedType → List Char
  | none => "void".toList
  | some type => type.chars

/-- What a signature declares, without its modifiers. -/
def ListedShape.print (s : Style) : ListedShape → List Char
  | method result name parameters throws =>
    resultChars result ++ ' ' :: (name.chars ++ printTail s parameters throws)
  | constructor name parameters throws =>
    name.chars ++ printTail s parameters throws
  | staticInitializer => ['\x7b', '\x7d']

/-- A field in its line. -/
def ListedField.print (f : ListedField) : List Char :=
  printModifiers f.modifiers ++ (f.type.chars ++ ' ' :: (f.name.chars ++ [';', '\n']))

/-- A number in decimal. -/
def decimal (n : UInt32) : List Char :=
  Nat.toDigits 10 n.toNat

/-- A row of a line number table. -/
def LineRow.print (s : Style) (r : LineRow) : List Char :=
  gap s.row ++ ("line ".toList ++ (decimal r.line ++ (": ".toList ++ (decimal r.offset ++ ['\n']))))

/-- The headings of the columns for variables. -/
def printHeadings (s : Style) : List Char :=
  gap s.row ++ ("Start".toList ++ (gap s.headings.1 ++ ("Length".toList
    ++ (gap s.headings.2.1 ++ ("Slot".toList ++ (gap s.headings.2.2.1 ++ ("Name".toList
      ++ (gap s.headings.2.2.2 ++ ("Signature".toList ++ ['\n'])))))))))

/-- A row of a local variable table. -/
def VariableRow.print (s : Style) (r : VariableRow) : List Char :=
  gap s.row ++ (decimal r.start ++ (gap s.entries.1 ++ (decimal r.length
    ++ (gap s.entries.2.1 ++ (decimal r.slot ++ (gap s.entries.2.2.1 ++ (r.name.chars
      ++ (gap s.entries.2.2.2 ++ (r.descriptor.chars ++ ['\n'])))))))))

/-- The line with the title of a table. -/
def printTitle (s : Style) (title : String) : List Char :=
  spaces s.title ++ (title.toList ++ (spaces s.titleEnd ++ ['\n']))

/-- A line number table, with a blank line after it. -/
def printLines (s : Style) (rows : List LineRow) : List Char :=
  printTitle s "LineNumberTable:" ++ (rows.flatMap (·.print s) ++ ['\n'])

/-- A local variable table, with a blank line after it. -/
def printVariables (s : Style) (rows : List VariableRow) : List Char :=
  printTitle s "LocalVariableTable:" ++ (printHeadings s ++ (rows.flatMap (·.print s) ++ ['\n']))

namespace ListedMember

/-- The signature of a member without the semicolon. -/
def signature (s : Style) (m : ListedMember) : List Char :=
  printModifiers m.modifiers ++ m.shape.print s

/-- A member: fields, the signature line, the two tables, and a blank line. -/
def print (s : Style) (m : ListedMember) : List Char :=
  m.fields.flatMap (·.print) ++ ((m.signature s ++ [';', '\n'])
    ++ (printLines s m.lines ++ (printVariables s m.locals ++ ['\n'])))

end ListedMember

/-- The word for a kind of class. -/
def kindWord : TypeKind → String
  | .classType => "class"
  | .interfaceType => "interface"

namespace Listing

/-- The class header. -/
def header (s : Style) (c : Listing) : List Char :=
  printModifiers c.modifiers ++ ((kindWord c.kind).toList ++ ' ' :: (c.name.chars
    ++ (printClause s 0 "extends" c.extended ++ printClause s 0 "implements" c.implemented)))

/-- The transcript of a class. -/
def print (s : Style) (c : Listing) : List Char :=
  ("Compiled from \"".toList ++ (c.sourceFile ++ ['"', '\n'])) ++ (c.header s ++ ('\x7b' :: '\n' ::
    (c.members.flatMap (·.print s) ++ (c.fields.flatMap (·.print) ++ ['\x7d', '\n']))))

end Listing

/-! ### Records -/

/-- The texts of names. -/
def nameTexts (names : List DottedName) : List String :=
  names.map fun n => String.ofList n.chars

/-- The texts of types. -/
def typeTexts (types : List ListedType) : List String :=
  types.map fun t => String.ofList t.chars

/-- The record of a field. -/
def ListedField.record (f : ListedField) : FieldRecord where
  modifiers := f.modifiers.map (·.word)
  typeName := String.ofList f.type.chars
  name := String.ofList f.name.chars

/-- The shape that a signature declares. -/
def ListedShape.record : ListedShape → MemberShape
  | method result name parameters throws =>
    .method (String.ofList (resultChars result)) (String.ofList name.chars) (typeTexts parameters)
      (nameTexts throws)
  | constructor name parameters throws =>
    .constructor (String.ofList name.chars) (typeTexts parameters) (nameTexts throws)
  | staticInitializer => .staticInitializer

/-- The record of a row of a line number table. -/
def LineRow.record (r : LineRow) : LineNumber where
  line := r.line.toNat
  offset := r.offset.toNat

/-- The record of a row of a local variable table. -/
def VariableRow.record (r : VariableRow) : LocalVariable where
  start := r.start.toNat
  length := r.length.toNat
  slot := r.slot.toNat
  name := String.ofList r.name.chars
  descriptor := String.ofList r.descriptor.chars

/-- The record of a member. -/
def ListedMember.record (s : Style) (m : ListedMember) : MemberRecord where
  shape := m.shape.record
  signature := String.ofList (m.signature s)
  modifiers := m.modifiers.map (·.word)
  typeParameters := none
  lineNumbers := m.lines.map (·.record)
  localVariables := m.locals.map (·.record)

/-- The record of a class. The fields are those before each member and those after the last. -/
def Listing.record (s : Style) (c : Listing) : ClassRecord where
  sourceFile := String.ofList c.sourceFile
  kind := c.kind
  modifiers := c.modifiers.map (·.word)
  name := String.ofList c.name.chars
  typeParameters := none
  extended := nameTexts c.extended
  implemented := nameTexts c.implemented
  fields := (c.members.flatMap (·.fields) ++ c.fields).map (·.record)
  members := c.members.map (·.record s)

end ClassTranscript.Transcript
