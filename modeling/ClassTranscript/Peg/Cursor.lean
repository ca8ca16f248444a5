import ClassTranscript.Peg.CharClass
import ClassTranscript.Text.Span

/-!
# Positions in the input

A `Cursor` is a byte offset together with the characters from there to the end, so that looking at
the next character never searches the input. A `Test` is what a terminal expression asks of the
input at a cursor; passing it moves the cursor over the characters that the test consumes.
-/

namespace ClassTranscript.Peg

/-- A position in the input: a byte offset and the characters that follow it. -/
structure Cursor where
  offset : Nat
  rest : List Char
  deriving DecidableEq, Repr

namespace Cursor

/-- The position before the first character of a text. -/
def atStart (text : String) : Cursor :=
  ⟨0, text.toList⟩

/-- The position after the first character, if there is one and it satisfies `p`. -/
def next? (p : Char → Bool) : Cursor → Option Cursor
  | ⟨_, []⟩ => none
  | ⟨offset, c :: rest⟩ => if p c then some ⟨offset + c.utf8Size, rest⟩ else none

/-- The position after a text, if the input goes on with that text. -/
def after? (text : List Char) (here : Cursor) : Option Cursor :=
  (text.isPrefixOf? here.rest).map fun rest => ⟨here.offset + Text.byteLength text, rest⟩

end Cursor

/-- What a terminal expression asks of the input. -/
inductive Test where
  | text (chars : List Char)
  | char (cls : CharClass)
  | any
  | endOfInput
  deriving DecidableEq, Repr

namespace Test

/-- The position after what a test consumes, if the input passes it. -/
def pass? : Test → Cursor → Option Cursor
  | .text chars, here => here.after? chars
  | .char cls, here => here.next? cls.holds
  | .any, here => here.next? fun _ => true
  | .endOfInput, here => if here.rest.isEmpty then some here else none

/-- Whether a test can be passed without consuming anything. -/
def isNullable : Test → Bool
  | .text chars => chars.isEmpty
  | .char _ => false
  | .any => false
  | .endOfInput => true

end Test

end ClassTranscript.Peg
