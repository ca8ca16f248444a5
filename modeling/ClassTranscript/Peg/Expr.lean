import ClassTranscript.Peg.CharClass

/-!
# Parsing expressions

`Expr` is the form in which the bodies of rules are written. References to other rules are by
name. An expression is displayed in the usual notation, with parentheses only where the binding
strength of an operator asks for them; a sequence or a choice of one item is displayed as that
item.
-/

namespace ClassTranscript.Peg

/-- A parsing expression. -/
inductive Expr where
  /-- An exact text, case sensitive. -/
  | literal (text : String)
  /-- One character of a class. -/
  | char (cls : CharClass)
  /-- Any single character. -/
  | any
  /-- The end of the input. Consumes nothing. -/
  | endOfInput
  | seq (items : List Expr)
  /-- An ordered choice: the first alternative that matches wins. -/
  | choice (alternatives : List Expr)
  /-- Zero or more times. -/
  | star (body : Expr)
  /-- One or more times. -/
  | plus (body : Expr)
  | optional (body : Expr)
  /-- The body matches here. Consumes nothing. -/
  | ahead (body : Expr)
  /-- The body does not match here. Consumes nothing. -/
  | notAhead (body : Expr)
  /-- A call of the rule of that name. -/
  | rule (name : String)
  deriving Repr

namespace Expr

/-- Text within parentheses when `needed`. -/
def enclose (needed : Bool) (text : List Char) : List Char :=
  if needed then '(' :: (text ++ [')']) else text

mutual

/-- The written form of an expression where operators weaker than a binding strength stand in
parentheses: 0 for choices, 1 for sequences, 2 for predicates, 3 for repetitions, and 4 for what
needs none. -/
def write (strength : Nat) : Expr → List Char
  | .literal text => (Text.quote text).toList
  | .char cls => cls.write
  | .any => ['.']
  | .endOfInput => ['E', 'O', 'I']
  | .seq [] => ['(', ')']
  | .seq [item] => write strength item
  | .seq items => enclose (1 < strength) ([' '].intercalate (writeAll 2 items))
  | .choice [] => []
  | .choice [item] => write strength item
  | .choice items => enclose (0 < strength) ([' ', '/', ' '].intercalate (writeAll 1 items))
  | .star body => enclose (3 < strength) (write 4 body ++ ['*'])
  | .plus body => enclose (3 < strength) (write 4 body ++ ['+'])
  | .optional body => enclose (3 < strength) (write 4 body ++ ['?'])
  | .ahead body => enclose (2 < strength) ('&' :: write 3 body)
  | .notAhead body => enclose (2 < strength) ('!' :: write 3 body)
  | .rule name => name.toList

/-- The written forms of several expressions. -/
def writeAll (strength : Nat) : List Expr → List (List Char)
  | [] => []
  | item :: items => write strength item :: writeAll strength items

end

instance : ToString Expr where
  toString e := String.ofList (e.write 0)

/-- What a failure of a terminal expression says it expected. There is no such text for an
expression composed of others. -/
def expectation : Expr → Option String
  | .literal text => some (Text.quote text)
  | .char cls => some (toString cls)
  | .any => some "any character"
  | .endOfInput => some "end of input"
  | _ => none

/-- Whether an expression tests the input itself. -/
def isTerminal (e : Expr) : Bool :=
  e.expectation.isSome

mutual

/-- An expression as a document. -/
def toJson : Expr → Json
  | .literal text => .object [("literal", .text text)]
  | .char cls => .object [("class", cls.toJson)]
  | .any => .text "any"
  | .endOfInput => .text "eoi"
  | .seq items => .object [("seq", .array (toJsonAll items))]
  | .choice items => .object [("choice", .array (toJsonAll items))]
  | .star body => .object [("zero_or_more", toJson body)]
  | .plus body => .object [("one_or_more", toJson body)]
  | .optional body => .object [("optional", toJson body)]
  | .ahead body => .object [("and", toJson body)]
  | .notAhead body => .object [("not", toJson body)]
  | .rule name => .object [("ref", .text name)]

/-- Several expressions as documents. -/
def toJsonAll : List Expr → List Json
  | [] => []
  | item :: items => toJson item :: toJsonAll items

end

end Expr

end ClassTranscript.Peg
