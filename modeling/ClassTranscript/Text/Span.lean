/-!
# Byte offsets and spans

Offsets into a text count the bytes of its UTF-8 form. An offset is usable when it falls between
two characters; `dropBytes?` and `takeBytes?` cut a text at an offset and refuse one inside a
character or past the end.
-/

namespace ClassTranscript

namespace Text

/-- The number of bytes of a text. -/
def byteLength (cs : List Char) : Nat :=
  (cs.map Char.utf8Size).foldr (· + ·) 0

/-- A text without its first `n` bytes, when a character ends there. -/
def dropBytes? : Nat → List Char → Option (List Char)
  | 0, cs => some cs
  | _ + 1, [] => none
  | n + 1, c :: cs => if c.utf8Size ≤ n + 1 then dropBytes? (n + 1 - c.utf8Size) cs else none

/-- The first `n` bytes of a text, when a character ends there. -/
def takeBytes? : Nat → List Char → Option (List Char)
  | 0, _ => some []
  | _ + 1, [] => none
  | n + 1, c :: cs =>
    if c.utf8Size ≤ n + 1 then (takeBytes? (n + 1 - c.utf8Size) cs).map (c :: ·) else none

/-- The characters from the byte offset `start` up to the byte offset `stop`. There are none to
give when one of the offsets is unusable or the two are in the wrong order. -/
def slice? (start stop : Nat) (cs : List Char) : Option (List Char) :=
  if start ≤ stop then (dropBytes? start cs).bind (takeBytes? (stop - start)) else none

end Text

/-- The half-open range of bytes from `start` to `stop`. -/
structure Span where
  start : Nat
  stop : Nat
  deriving DecidableEq, Repr

namespace Span

/-- The span of no bytes at an offset. -/
def empty (offset : Nat) : Span :=
  ⟨offset, offset⟩

/-- The number of bytes covered. -/
def length (s : Span) : Nat :=
  s.stop - s.start

/-- Whether no byte is covered. -/
def isEmpty (s : Span) : Bool :=
  s.start == s.stop

/-- The text covered, empty when the span does not fit the source. -/
def slice (s : Span) (source : String) : String :=
  String.ofList ((Text.slice? s.start s.stop source.toList).getD [])

instance : ToString Span where
  toString s := toString s.start ++ ".." ++ toString s.stop

end Span

end ClassTranscript
