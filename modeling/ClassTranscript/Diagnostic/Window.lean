import ClassTranscript.Text.Shown

/-!
# Windows on wide lines

An excerpt is only so wide. `Window.fit` chooses the columns of the lines that it shows: the ones
around the mark and its label, and little of a deep indentation. `Window.cut` takes these columns
out of a line and tells where dots stand for what is left out.
-/

namespace ClassTranscript

/-- What an excerpt has to show, in display columns. -/
structure Extent where
  /-- The blank columns before the text of every line and before the mark. -/
  indent : Nat
  /-- The column at which the mark begins. -/
  first : Nat
  /-- The column at which the mark ends. -/
  last : Nat
  /-- The column at which the label ends. -/
  label : Nat
  /-- The columns of the widest line. -/
  widest : Nat

/-- The columns that an excerpt shows of its lines. -/
structure Window where
  /-- How many columns there is room for. -/
  room : Nat
  /-- The column at which the window begins. -/
  left : Nat
  /-- The column at which the window ends. -/
  right : Nat

/-- A line as a window shows it. -/
structure Cut where
  /-- The columns of the line that are left out before the text. -/
  skipped : Nat
  /-- The columns that dots and blanks take before the text, if something is left out there. -/
  lead? : Option Nat
  text : List Char
  /-- What stands behind the dots after the text, if something is left out there. -/
  tail? : Option (List Char)

namespace Window

/-- What stands for columns that are left out. -/
def dots : String :=
  "..."

/-- The columns around a mark and its label that should be seen with them. -/
def slack : Nat :=
  6

/-- The deepest indentation that is shown in full. -/
def deepest : Nat :=
  20

/-- The columns of a deeper indentation that are left out of the deepest one that is shown. -/
def shortening : Nat :=
  16

/-- A window that uses all its room. -/
def full (room left : Nat) : Window :=
  ⟨room, left, left + room⟩

/-- The window on lines of some extent. A deep indentation is shortened. If that is not enough, the
window begins where the indentation ends, provided that the label ends in the window; or else it has
the mark and the label in its middle; or else the mark, and more of what follows it than of what
comes before. If even the mark is too wide, the window holds the mark. -/
def fit (room : Nat) (x : Extent) : Window :=
  let indent := x.indent - slack
  let first := x.first - slack
  let last := x.last + slack
  let label := x.label + slack
  let left := if deepest < indent then indent - shortening else 0
  let right := max x.widest left
  if right - left ≤ room then ⟨room, left, right⟩
  else if label - indent ≤ room then full room indent
  else if label - first ≤ room then full room (first - (room - (label - first)) / 2)
  else if last - first ≤ room then full room (first - (room - (last - first)) / 5 * 2)
  else ⟨room, first, last⟩

/-- What a window shows of a line. Where the window begins inside a line or ends inside it, dots
take the place of the characters there. At the end a dot takes the place of one character of any
width: of more than three characters, the others stay behind the dots. -/
def cut (w : Window) (line : List Char) : Cut :=
  let width := Text.width line
  let left := min w.left width
  let right := if width - w.left ≤ w.room then width else min width w.right
  let (skipped, rest) := Text.skipColumns left 0 (Text.shown line)
  let kept := Text.takeColumns (right - left) rest
  let (lead, text) := if w.left = 0 then (0, kept) else Text.skipColumns dots.length 0 kept
  let covered := kept.length - (Text.skipColumns dots.length 0 kept.reverse).2.length
  let kept := text.length - covered
  { skipped := skipped
    lead? := if w.left = 0 then none else some lead
    text := if right < width then text.take kept else text
    tail? := if right < width then some (text.drop (kept + dots.length)) else none }

end Window

end ClassTranscript
