import ClassTranscript.Text.Blank
import ClassTranscript.Text.Span

/-!
# Lines and columns

A carriage return, a line feed, or the two in this order end a line. `LineTable` lists the byte
offsets at which the lines of a text start; `position` looks a byte offset up among them and
translates it to a line and a column, both counted from one.
-/

namespace ClassTranscript

/-- A line and a column, counted from one. -/
structure Position where
  line : Nat
  column : Nat
  deriving DecidableEq, Repr

instance : ToString Position where
  toString p := toString p.line ++ ":" ++ toString p.column

/-- A text with the offsets at which its lines start, in order. -/
structure LineTable where
  source : String
  starts : List Nat

namespace LineTable

/-- The offsets just after the line ends of a text that begins at an offset. -/
def startsFrom : Nat → List Char → List Nat
  | _, [] => []
  | n, '\r' :: '\n' :: cs => (n + 2) :: startsFrom (n + 2) cs
  | n, c :: cs =>
    if c = '\r' ∨ c = '\n' then (n + 1) :: startsFrom (n + 1) cs
    else startsFrom (n + c.utf8Size) cs

/-- The line table of a text. The first line starts at offset zero. -/
def ofText (source : String) : LineTable :=
  ⟨source, 0 :: startsFrom 0 source.toList⟩

/-- The number of lines. A text that ends in a line end has an empty last line. -/
def lineCount (t : LineTable) : Nat :=
  t.starts.length

/-- Halves the `size` entries of an ascending list from `base` on until one is left: the last that
is at most `x`, or the first if all are greater. -/
def narrow (entries : List Nat) (x base size : Nat) : Nat :=
  if 1 < size then
    let middle := base + size / 2
    if entries.getD middle 0 ≤ x then narrow entries x middle (size - size / 2)
    else narrow entries x base (size - size / 2)
  else base
termination_by size
decreasing_by all_goals omega

/-- The index of a number in an ascending list, or else, as an error, the index at which it would
have to be put. -/
def search (entries : List Nat) (x : Nat) : Except Nat Nat :=
  if entries.isEmpty then .error 0
  else
    let index := narrow entries x 0 entries.length
    let entry := entries.getD index 0
    if entry = x then .ok index else .error (if entry < x then index + 1 else index)

/-- The index of the line of an offset: the one that starts there, or else the one before the first
that starts further on. -/
def lineIndex (t : LineTable) (offset : Nat) : Nat :=
  match search t.starts offset with
  | .ok index => index
  | .error next => next - 1

/-- The line and column of an offset; an offset past the end counts as the end. The column counts
characters, or bytes when the offset falls inside a character. -/
def position (t : LineTable) (offset : Nat) : Position :=
  let offset := min offset t.source.utf8ByteSize
  let line := t.lineIndex offset
  let start := t.starts.getD line 0
  let column := match Text.slice? start offset t.source.toList with
    | some cs => cs.length
    | none => offset - start
  ⟨line + 1, column + 1⟩

/-- The text of a line without its line end. -/
def lineText (t : LineTable) : Nat → Option String
  | 0 => none
  | n + 1 => do
    let start ← t.starts[n]?
    let stop := t.starts[n + 1]?.getD t.source.utf8ByteSize
    let cs ← Text.slice? start stop t.source.toList
    return String.ofList (Text.dropEndWhile (fun c => c == '\r' || c == '\n') cs)

end LineTable

end ClassTranscript
