/-!
# Pieces of a text

`pieces` cuts a text at every occurrence of a character. There is always one piece more than there
are occurrences, so the pieces with the character between them are the text again.
-/

namespace ClassTranscript.Text

/-- What stands between the occurrences of a character in a text. -/
def pieces (separator : Char) : List Char → List (List Char)
  | [] => [[]]
  | c :: cs =>
    if c = separator then [] :: pieces separator cs
    else
      match pieces separator cs with
      | [] => [[c]]
      | piece :: others => (c :: piece) :: others

end ClassTranscript.Text
