import ClassTranscript.Diagnostic.Excerpt
import ClassTranscript.Peg.Outcome
import ClassTranscript.Text.Lines

/-!
# Reports on failed parses

A mismatch is reported against the text that was parsed: in one line that gives the place as line
and column, or as an excerpt of the text with that line as its title.
-/

namespace ClassTranscript.Peg.Mismatch

/-- One line: what happened, and where as line and column. -/
def summary (m : Mismatch) (source : String) : String :=
  m.describe (toString ((LineTable.ofText source).position m.furthest))

/-- What the mark in the excerpt says. -/
def label (m : Mismatch) : String :=
  match m.cause with
  | .limit _ => "parsing stopped here"
  | .grammar =>
    if m.expected.isEmpty then "unexpected input" else "expected " ++ ", ".intercalate m.expected

/-- The bytes of the character at the place of a mismatch. There are none at the end. -/
def markedSpan (m : Mismatch) (source : String) : Span :=
  let start := min m.furthest source.utf8ByteSize
  match Text.dropBytes? start source.toList with
  | some (c :: _) => ⟨start, start + c.utf8Size⟩
  | _ => .empty start

/-- The excerpt of the source around the place of a mismatch. -/
def excerpt (m : Mismatch) (source : String) (path : Option String) : Excerpt where
  title := m.summary source
  path := path
  source := source
  span := m.markedSpan source
  label := m.label

/-- A mismatch as an annotated excerpt of its source. -/
def render (m : Mismatch) (source : String) (path : Option String) (colored : Bool) : String :=
  (m.excerpt source path).render (if colored then .bold else .plain)

end ClassTranscript.Peg.Mismatch
