import ClassTranscript.Text.Span

/-!
# Escaped text

`escape` writes a text on one line: line breaks, tabs, quotes, backslashes and the other control
characters become escapes, and every other character stands for itself. `preview` quotes the
beginning of a text in that form.
-/

namespace ClassTranscript.Text

/-- Whether a character is a control character, of the general category `Cc`. -/
def isControl (c : Char) : Bool :=
  c.toNat < 0x20 || (0x7F ≤ c.toNat && c.toNat < 0xA0)

/-- The escape of a character by its code point, in lowercase hexadecimal. -/
def codePointEscape (c : Char) : List Char :=
  '\\' :: 'u' :: '\x7b' :: (Nat.toDigits 16 c.toNat ++ ['\x7d'])

/-- The escaped form of one character. -/
def escapeChar (c : Char) : List Char :=
  match c with
  | '\n' => ['\\', 'n']
  | '\r' => ['\\', 'r']
  | '\t' => ['\\', 't']
  | '"' => ['\\', '"']
  | '\\' => ['\\', '\\']
  | c => if isControl c then codePointEscape c else [c]

/-- A text with its control characters, quotes and backslashes escaped. -/
def escape (text : String) : String :=
  String.ofList (text.toList.flatMap escapeChar)

/-- A text, escaped, between double quotes. -/
def quote (text : String) : String :=
  "\"" ++ escape text ++ "\""

/-- The characters of a text that begins at a byte offset, each with the offset at which it
begins. -/
def charOffsets : Nat → List Char → List (Nat × Char)
  | _, [] => []
  | n, c :: cs => (n, c) :: charOffsets (n + c.utf8Size) cs

/-- The quoted beginning of a text, at most `max` characters of it. The text is cut where the first
character after them begins, and an ellipsis follows the closing quote when there is one. -/
def preview (text : String) (max : Nat) : String :=
  match (charOffsets 0 text.toList)[max]? with
  | some (cut, _) => quote (Span.slice ⟨0, cut⟩ text) ++ "…"
  | none => quote text

end ClassTranscript.Text
