import ClassTranscript.Json
import ClassTranscript.Text.Alphabetic
import ClassTranscript.Text.Escape
import ClassTranscript.Text.Numeric

/-!
# Character classes

A character class is a predicate on single characters, with a written form of its own in the
notation for parsing expressions.
-/

namespace ClassTranscript.Peg

/-- A set of characters that a single character is tested against. -/
inductive CharClass where
  | only (c : Char)
  /-- The characters from `lo` to `hi`, both included. -/
  | range (lo hi : Char)
  | anyOf (set : List Char)
  | noneOf (set : List Char)
  /-- What may begin an identifier: an alphabetic character, an underscore or a dollar sign. -/
  | letter
  /-- What may stand inside an identifier: a letter as above, or a number of any kind. -/
  | letterOrDigit
  deriving DecidableEq, Repr

/-- Whether a character may begin an identifier. -/
def isLetter (c : Char) : Bool :=
  Text.isAlphabetic c || c == '_' || c == '$'

namespace CharClass

/-- Whether a class holds a character. -/
def holds : CharClass → Char → Bool
  | .only expected, c => c == expected
  | .range lo hi, c => lo ≤ c && c ≤ hi
  | .anyOf set, c => set.contains c
  | .noneOf set, c => !set.contains c
  | .letter, c => isLetter c
  | .letterOrDigit, c => isLetter c || Text.isNumeric c

/-- A character between the brackets of a set. The characters with a meaning there get a
backslash; a double quote has none. -/
def writeMember (c : Char) : List Char :=
  if c = ']' ∨ c = '-' ∨ c = '^' then ['\\', c]
  else if c = '"' then ['"']
  else Text.escapeChar c

/-- The written form of a class. -/
def write : CharClass → List Char
  | .only c => '\x27' :: (Text.escapeChar c ++ ['\x27'])
  | .range lo hi => '[' :: (writeMember lo ++ '-' :: (writeMember hi ++ [']']))
  | .anyOf set => '[' :: (set.flatMap writeMember ++ [']'])
  | .noneOf set => '[' :: '^' :: (set.flatMap writeMember ++ [']'])
  | .letter => "[:letter:]".toList
  | .letterOrDigit => "[:letter-or-digit:]".toList

instance : ToString CharClass where
  toString cls := String.ofList cls.write

/-- A class as a document. -/
def toJson : CharClass → Json
  | .only c => .object [("char", .text c.toString)]
  | .range lo hi => .object [("range", .texts [lo.toString, hi.toString])]
  | .anyOf set => .object [("any_of", .text (String.ofList set))]
  | .noneOf set => .object [("none_of", .text (String.ofList set))]
  | .letter => .text "java_letter"
  | .letterOrDigit => .text "java_letter_or_digit"

end CharClass

end ClassTranscript.Peg
