/-!
# Terminal colours

The control sequences that colour traces, outlines and warnings. The palette `off` holds empty
texts, so that uncoloured output is coloured output with that palette.
-/

namespace ClassTranscript

/-- The sequences that start a colour, and the one that ends it. -/
structure Palette where
  /-- Names of rules and labels of nodes. -/
  blue : String
  /-- Matched text. -/
  green : String
  /-- Failures. -/
  red : String
  /-- Warnings. -/
  yellow : String
  /-- Offsets and structure. -/
  dim : String
  reset : String
  deriving DecidableEq, Repr

namespace Palette

/-- The palette of the standard colours. -/
def on : Palette where
  blue := "\x1b[34m"
  green := "\x1b[32m"
  red := "\x1b[31m"
  yellow := "\x1b[33m"
  dim := "\x1b[2m"
  reset := "\x1b[0m"

/-- The palette without colours. -/
def off : Palette where
  blue := ""
  green := ""
  red := ""
  yellow := ""
  dim := ""
  reset := ""

/-- The palette for output that is coloured or not. -/
def ofBool (colored : Bool) : Palette :=
  if colored then on else off

/-- A text in the colour that a sequence starts. -/
def paint (p : Palette) (color text : String) : String :=
  color ++ text ++ p.reset

end Palette

end ClassTranscript
