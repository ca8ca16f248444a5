import ClassTranscript.Diagnostic.Window
import ClassTranscript.Text.Blank
import ClassTranscript.Text.Pieces
import ClassTranscript.Text.Span

/-!
# Annotated excerpts

An `Excerpt` shows one place of a source: the line around it and a mark below the character there,
with a label. Lines end at line feeds only, and the line feed and a carriage return just before it
are no part of the line. A mark on a line feed inside the source runs from the end of its line to
the beginning of the next, and both lines are shown. The title of an excerpt may have several lines,
which stand below one another.
-/

namespace ClassTranscript

namespace Excerpt

/-! ### Lines of the source -/

/-- A line of a source: its number from one, the offset of its first byte, and its text. -/
structure Line where
  number : Nat
  start : Nat
  text : List Char
  deriving DecidableEq, Repr

/-- The text of a line that ends in a line feed, given the characters before it with the last
first. -/
def endLine : List Char → List Char
  | '\r' :: cs => cs.reverse
  | cs => cs.reverse

/-- The lines of a text, where `read` holds the characters of the current line that are read, the
last first. After a final line feed there is no further line. -/
def linesFrom (number start : Nat) (read : List Char) : List Char → List Line
  | [] => if read.isEmpty then [] else [⟨number, start, read.reverse⟩]
  | c :: cs =>
    if c = '\n' then
      ⟨number, start, endLine read⟩
        :: linesFrom (number + 1) (start + Text.byteLength read + 1) [] cs
    else linesFrom number start (c :: read) cs

/-- The lines of a source. -/
def lines (source : String) : List Line :=
  linesFrom 1 0 [] source.toList

/-- The line that an offset belongs to: the last that starts at the offset or before. An empty
source has one empty line. -/
def lineAt (source : String) (offset : Nat) : Line :=
  ((lines source).filter (·.start ≤ offset)).getLastD ⟨1, 0, []⟩

/-- The characters of a line before an offset. -/
def Line.before (line : Line) (offset : Nat) : List Char :=
  (Text.takeBytes? (offset - line.start) line.text).getD line.text

/-- The column of an offset on its line, counted in characters from one. An offset beyond the text
of the line, on or after its line end, is one column further than the end of the text. -/
def Line.column (line : Line) (offset : Nat) : Nat :=
  let beyond := line.start + Text.byteLength line.text < offset
  (line.before offset).length + 1 + if beyond then 1 else 0

/-! ### Rows -/

/-- How the parts of an excerpt are highlighted. -/
structure Ink where
  /-- The heading after the word that opens it. -/
  title : String → String
  /-- Marks and labels. -/
  mark : String → String
  /-- Line numbers, the rule beside them, and dots. -/
  margin : String → String

namespace Ink

/-- No highlighting. -/
def plain : Ink :=
  ⟨id, id, id⟩

/-- Bold print, red for marks and blue for the margin. -/
def bold : Ink where
  title text := "\x1b[1m" ++ text ++ "\x1b[0m"
  mark text := "\x1b[1m\x1b[91m" ++ text ++ "\x1b[0m"
  margin text := "\x1b[1m\x1b[94m" ++ text ++ "\x1b[0m"

end Ink

end Excerpt

open Excerpt

/-- A place of a source to be shown under a title. -/
structure Excerpt where
  title : String
  /-- The name of the source, if it has one. -/
  path : Option String := none
  source : String
  /-- The bytes that the mark covers: those of one character, or none at the end of the source. -/
  span : Span
  /-- What the mark says. -/
  label : String

namespace Excerpt

/-- A text repeated. -/
def times (n : Nat) (c : Char) : String :=
  String.ofList (List.replicate n c)

/-- What stands beside the margin at the place of an excerpt. -/
inductive Body where
  /-- One line, with a mark of some columns below a column of it. -/
  | single (line : Line) (column columns : Nat)
  /-- The end of one line, marked through to the beginning of the next. -/
  | double (line next : Line)

/-- Where the mark of an excerpt goes. -/
def body (e : Excerpt) : Body :=
  let line := lineAt e.source e.span.start
  let column := Text.width (line.before e.span.start)
  match (e.span.slice e.source).toList, (lines e.source)[line.number]? with
  | ['\n'], some next => .double line next
  | ['\n'], none => .single line column 1
  | marked, _ => .single line column (max 1 (Text.width marked))

/-- The number of the line at which the mark begins. -/
def Body.number : Body → Nat
  | .single line _ _ => line.number
  | .double line _ => line.number

/-! ### The window -/

/-- The columns of an excerpt, with the margin. -/
def totalColumns : Nat :=
  140

/-- The blank columns at the beginning of a line. A tab takes four, any other blank character counts
as one. -/
def indentation (text : List Char) : Nat :=
  ((text.takeWhile Text.isBlank).map fun c => if c = '\t' then 4 else 1).foldr (· + ·) 0

/-- The least indentation of the lines that are not blank. -/
def commonIndentation (texts : List (List Char)) : Nat :=
  (((texts.filter fun text => !text.all Text.isBlank).map indentation).min?).getD 0

/-- The extent of one line, with a mark of some columns below a column of it and a label behind the
mark. -/
def singleExtent (line : Line) (column columns : Nat) (label : String) : Extent where
  indent := min (commonIndentation [line.text]) column
  first := column
  last := column + columns
  label := column + columns + Text.width label.toList + 1
  widest := Text.width line.text

/-- The extent of two lines that are marked from the end of the first to the beginning of the
second. -/
def doubleExtent (line next : Line) (label : String) : Extent where
  indent := 0
  first := 0
  last := Text.width line.text + 1
  label := max (Text.width line.text + 1) (Text.width label.toList + 1)
  widest := max (Text.width line.text) (Text.width next.text)

/-- The window on the lines of a body. The margin takes three columns and the line number, and the
rule beside two lines takes two more. -/
def Body.window (pad : Nat) (label : String) : Body → Window
  | .single line column columns =>
    .fit (totalColumns - (pad + 3)) (singleExtent line column columns label)
  | .double line next => .fit (totalColumns - (pad + 5)) (doubleExtent line next label)

/-! ### Layout -/

/-- A row: a line number or none, and what stands beside the margin. A number that takes the place
of the blank before the rule is highlighted together with it. -/
def row (ink : Ink) (pad : Nat) (number : Option Nat) (text : String) : String :=
  match number.map toString with
  | none => times (pad + 1) ' ' ++ ink.margin "|" ++ text
  | some digits =>
    if pad < digits.length then ink.margin (digits ++ "|") ++ text
    else ink.margin digits ++ times (pad + 1 - digits.length) ' ' ++ ink.margin "|" ++ text

/-- A text set off by a space, or nothing for no text. -/
def spaced (text : String) : String :=
  if text.isEmpty then "" else " " ++ text

/-- A line as a window shows it. -/
def shownLine (ink : Ink) (cut : Cut) : String :=
  (match cut.lead? with
    | none => ""
    | some lead => ink.margin Window.dots ++ times (lead - Window.dots.length) ' ')
  ++ String.ofList cut.text
  ++ match cut.tail? with
    | none => ""
    | some tail => ink.margin Window.dots ++ String.ofList tail

/-- Whether the characters of a line are all blank when it is shown, as many as it takes columns. -/
def isOpen (line : Line) : Bool :=
  ((Text.shown line.text).take (Text.width line.text)).all Text.isBlank

/-- The rows of a body. -/
def Body.rows (ink : Ink) (pad : Nat) (label : String) (body : Body) : List String :=
  let window := body.window pad label
  match body with
  | .single line column columns =>
    let cut := window.cut line.text
    [row ink pad (some line.number) (spaced (shownLine ink cut)),
     row ink pad none
      (" " ++ times (column - cut.skipped) ' ' ++ ink.mark (times columns '^') ++ " "
        ++ ink.mark label)]
  | .double line next =>
    let first := shownLine ink (window.cut line.text)
    let second := shownLine ink (window.cut next.text)
    (if isOpen line then [row ink pad (some line.number) (" " ++ ink.mark "/" ++ spaced first)]
    else
      [row ink pad (some line.number) ("   " ++ first),
       row ink pad none (" " ++ ink.mark (" " ++ times (Text.width line.text + 1) '_' ++ "^"))])
    ++ [row ink pad (some next.number) (" " ++ ink.mark "|" ++ spaced second),
        row ink pad none (" " ++ ink.mark "|_^" ++ " " ++ ink.mark label)]

/-- What opens an excerpt. -/
def heading : String :=
  "error"

/-- The lines of the title, the first behind the heading and the others below it. -/
def titleLines (e : Excerpt) (ink : Ink) : List String :=
  match (Text.pieces '\n' e.title.toList).map fun piece => String.ofList (Text.shown piece) with
  | [] => []
  | first :: others =>
    (ink.mark heading ++ ink.title (": " ++ first))
      :: others.map fun text =>
        times (heading.length + 2) ' ' ++ if text.isEmpty then "" else ink.title text

/-- The line and column of the place, as they follow the path. -/
def place (e : Excerpt) : Nat × Nat :=
  let line := lineAt e.source e.span.start
  (line.number, line.column e.span.start)

/-- An excerpt as text, without a line feed at its end. -/
def render (e : Excerpt) (ink : Ink) : String :=
  let body := e.body
  let pad := (toString body.number).length
  let origin := e.path.toList.map fun path =>
    let (line, column) := e.place
    times pad ' ' ++ ink.margin "--> " ++ path ++ ":" ++ toString line ++ ":" ++ toString column
  "\n".intercalate
    (e.titleLines ink ++ origin ++ row ink pad none "" :: body.rows ink pad e.label)

end Excerpt

end ClassTranscript
