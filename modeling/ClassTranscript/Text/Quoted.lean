import ClassTranscript.Text.Escape
import ClassTranscript.Text.Extender
import ClassTranscript.Text.Unprintable

/-!
# Visibly quoted text

`visible` quotes a text so that every character in it can be seen: what has no visible form, and
every mark that would join the character before it, is written by its code point.
-/

namespace ClassTranscript.Text

/-- The visible form of one character between double quotes. -/
def visibleChar (c : Char) : List Char :=
  match c with
  | '\x00' => ['\\', '0']
  | '\t' => ['\\', 't']
  | '\r' => ['\\', 'r']
  | '\n' => ['\\', 'n']
  | '\\' => ['\\', '\\']
  | '"' => ['\\', '"']
  | c => if isExtender c || !isPrintable c then codePointEscape c else [c]

/-- A text between double quotes with every character visible. -/
def visible (text : String) : String :=
  "\"" ++ String.ofList (text.toList.flatMap visibleChar) ++ "\""

end ClassTranscript.Text
