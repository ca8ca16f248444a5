import ClassTranscript.Text.Width

/-!
# Text as it is shown

Not every character can be shown beside others as it is: a tab has no width of its own, a control
character has no form, and some characters rearrange the text around them. `shown` puts visible
characters in their places. `width` measures a text as it is shown; `skipColumns` and `takeColumns`
cut one at a column.
-/

namespace ClassTranscript.Text

/-- Whether a character changes the direction of the text. -/
def isTurning (c : Char) : Bool :=
  (0x202A ≤ c.toNat && c.toNat ≤ 0x202E) || (0x2066 ≤ c.toNat && c.toNat ≤ 0x2069)

/-- How a character is shown: a tab as four spaces, a control character as its picture, and a
character that changes the direction of the text as a replacement character. A joiner is not
shown. -/
def showChar (c : Char) : List Char :=
  if c = '\t' then [' ', ' ', ' ', ' ']
  else if c.toNat < 0x20 then [Char.ofNat (0x2400 + c.toNat)]
  else if c.toNat = 0x7F then ['␡']
  else if c.toNat = 0x200D then []
  else if isTurning c then ['\uFFFD']
  else [c]

/-- A text as it is shown. -/
def shown (cs : List Char) : List Char :=
  cs.flatMap showChar

/-- The display columns that a text takes when it is shown. -/
def width (cs : List Char) : Nat :=
  ((shown cs).map columns).foldr (· + ·) 0

/-- A text that is shown, from the first character on that does not begin before column `n`, with
the column at which it begins. The column of the first character given is `start`. -/
def skipColumns (n start : Nat) : List Char → Nat × List Char
  | [] => (start, [])
  | c :: cs => if start < n then skipColumns n (start + columns c) cs else (start, c :: cs)

/-- The beginning of a text that is shown, as far as it fits `n` columns, where `read` holds the
characters that are read, the last first. -/
def takeColumnsFrom (read : List Char) (n : Nat) : List Char → List Char
  | [] => read.reverse
  | c :: cs =>
    if columns c ≤ n then takeColumnsFrom (c :: read) (n - columns c) cs else read.reverse

/-- The beginning of a text that is shown, as far as it fits `n` columns. -/
def takeColumns (n : Nat) (cs : List Char) : List Char :=
  takeColumnsFrom [] n cs

end ClassTranscript.Text
