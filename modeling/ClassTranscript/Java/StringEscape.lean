import ClassTranscript.Text.Numeral

/-!
# Escapes in string literals

`decode` reads the body of a Java string literal: a backslash begins an escape, every other
character stands for itself. An escape is a letter for a control character, one to three octal
digits up to the value 255, or letters `u` and four hexadecimal digits. What does not name a
character keeps a single `u`, and any other character after a backslash stands for itself.
-/

namespace ClassTranscript.Java

/-- The control character that a letter after a backslash names. -/
def controlEscape? (c : Char) : Option Char :=
  match c with
  | 'b' => some '\x08'
  | 't' => some '\t'
  | 'n' => some '\n'
  | 'f' => some '\x0c'
  | 'r' => some '\r'
  | _ => none

/-- Whether a character is an octal digit. -/
def isOctal (c : Char) : Bool :=
  (Text.digit? 8 c).isSome

/-- The digits of an octal escape, given the first and what follows it. Three digits are taken only
where the value stays below 256. -/
def octalDigits (first : Char) (cs : List Char) : List Char :=
  first :: (cs.take (if first ≤ '3' then 2 else 1)).takeWhile isOctal

/-- The character of an octal escape. -/
def octalValue (digits : List Char) : Char :=
  Char.ofNat (Text.ofDigits 8 (digits.filterMap (Text.digit? 8)))

/-- The character of a code point. Surrogates are no characters. -/
def scalar? (n : Nat) : Option Char :=
  if n.isValidChar then some (Char.ofNat n) else none

/-- What four hexadecimal digits of a Unicode escape stand for. -/
def unicodeValue (digits : List Char) : List Char :=
  match (Text.numeral? 16 0x110000 digits).bind scalar? with
  | some c => [c]
  | none => '\\' :: 'u' :: digits

/-- What an escape stands for, and what follows it. The argument begins after the backslash. -/
def readEscape : List Char → List Char × List Char
  | [] => (['\\'], [])
  | c :: cs =>
    if c = 'u' then
      let digits := cs.dropWhile (· == 'u')
      (unicodeValue (digits.take 4), digits.drop 4)
    else if isOctal c then
      let digits := octalDigits c cs
      ([octalValue digits], cs.drop (digits.length - 1))
    else ([(controlEscape? c).getD c], cs)

/-- What follows an escape is no longer than what follows its backslash. -/
theorem length_readEscape_le (cs : List Char) :
  (readEscape cs).2.length ≤ cs.length
  := by
  cases cs with
  | nil => simp [readEscape]
  | cons c cs =>
    simp only [readEscape, List.length_cons]
    split
    · have h := (List.dropWhile_suffix (l := cs) (· == 'u')).length_le
      simp only [List.length_drop]
      omega
    · split
      · simp only [List.length_drop]
        omega
      · simp

/-- The text that the body of a string literal stands for. -/
def decode : List Char → List Char
  | [] => []
  | c :: cs =>
    if c = '\\' then (readEscape cs).1 ++ decode (readEscape cs).2
    else c :: decode cs
termination_by cs => cs.length
decreasing_by
  · have h := length_readEscape_le cs
    simp only [List.length_cons]
    omega
  · simp

/-- The text of a string literal between quotes, without its quotes and with its escapes decoded. A
text that is not between quotes is decoded as it is. -/
def literalText (literal : String) : String :=
  String.ofList (decode (body literal.toList))
where
  /-- What is between the quotes. -/
  body (cs : List Char) : List Char :=
    match cs with
    | '"' :: rest => if rest.getLast? = some '"' then rest.dropLast else cs
    | _ => cs

end ClassTranscript.Java
