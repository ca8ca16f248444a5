import ClassTranscript.Text.Pieces

/-!
# Paths

A `Path` is a path as it is written, with slashes between the names. Two slashes in a row, a slash
at the end and a single dot behind a slash say nothing, so the operations that take a path apart
pass over them; they leave the rest of the path as it is written. What a path begins with is its
`Anchor`; the `pieces` after it are what stands between the slashes.
-/

namespace ClassTranscript

/-- A path as it is written. -/
structure Path where
  text : String
  deriving DecidableEq, Repr

/-- What a path begins with. -/
inductive Anchor where
  /-- A slash: the path begins at the root. -/
  | root
  /-- A single dot. -/
  | dot
  /-- A name, two dots, or nothing at all. -/
  | plain
  deriving DecidableEq, Repr

/-- Whether a piece says nothing. -/
def isIdle (piece : String) : Bool :=
  piece == "" || piece == "."

/-- Pieces without the idle ones at the end. -/
def dropIdleEnd (pieces : List String) : List String :=
  (pieces.reverse.dropWhile isIdle).reverse

/-- The part of a file name before its last dot, and the part after it. A dot at the beginning does
not count. -/
def splitExtension (name : String) : String × Option String :=
  let cs := name.toList
  let tail := (cs.reverse.takeWhile (· != '.')).reverse
  let head := cs.take (cs.length - tail.length - 1)
  if tail.length = cs.length ∨ head.isEmpty then (name, none)
  else (String.ofList head, some (String.ofList tail))

namespace Path

/-- The anchor of a path and the pieces after it. -/
def parts (p : Path) : Anchor × List String :=
  match (Text.pieces '/' p.text.toList).map String.ofList with
  | "" :: piece :: pieces => (.root, piece :: pieces)
  | "." :: pieces => (.dot, pieces)
  | pieces => (.plain, pieces)

/-- The anchor of a path. -/
def anchor (p : Path) : Anchor :=
  p.parts.1

/-- The pieces of a path after its anchor. -/
def pieces (p : Path) : List String :=
  p.parts.2

/-- The path of an anchor and the pieces after it. -/
def ofParts (anchor : Anchor) (pieces : List String) : Path :=
  let rest := "/".intercalate pieces
  match anchor with
  | .root => ⟨"/" ++ rest⟩
  | .dot => ⟨if pieces.isEmpty then "." else "./" ++ rest⟩
  | .plain => ⟨rest⟩

/-- The steps of a path from its anchor on: names to go down by, and two dots to go up. -/
def steps (p : Path) : List String :=
  p.pieces.filter (!isIdle ·)

/-- Whether a path ends in a way that only a directory can have. -/
def endsIdle (p : Path) : Bool :=
  p.text != "" && p.pieces.getLast?.any isIdle

/-- The path of what `q` means from the directory `p`. -/
def join (p q : Path) : Path :=
  if q.anchor = .root then q
  else if p.text = "" ∨ p.text.toList.getLast? = some '/' then ⟨p.text ++ q.text⟩
  else ⟨p.text ++ "/" ++ q.text⟩

/-- The path without its last step. -/
def parent? (p : Path) : Option Path :=
  let pieces := dropIdleEnd p.pieces
  if pieces.isEmpty then
    match p.anchor with
    | .dot => some ⟨""⟩
    | _ => none
  else some (ofParts p.anchor (dropIdleEnd pieces.dropLast))

/-- The last step of a path, if it is a name. -/
def fileName? (p : Path) : Option String :=
  p.steps.getLast?.filter (· != "..")

/-- The file name without its extension. -/
def stem? (p : Path) : Option String :=
  p.fileName?.map fun name => (splitExtension name).1

/-- The extension of the file name. -/
def extension? (p : Path) : Option String :=
  p.fileName?.bind fun name => (splitExtension name).2

/-- The path with another extension. Without a file name it stays as it is. The old extension is
taken off a path that ends in it before the new one is put on, so two dots may be left in between,
and they are no file name: the path `..txt` becomes the path `..` and gets no extension. -/
def withExtension (p : Path) (extension : String) : Path :=
  match p.stem? with
  | none => p
  | some stem =>
    let name := if stem = "." ∧ !p.endsIdle then ".." else stem ++ "." ++ extension
    ofParts p.anchor ((dropIdleEnd p.pieces).dropLast ++ [name])

/-- The pieces left when steps have been taken from the front of them. -/
def dropSteps? : List String → List String → Option (List String)
  | pieces, [] => some pieces
  | [], _ :: _ => none
  | piece :: pieces, step :: steps =>
    if isIdle piece then dropSteps? pieces (step :: steps)
    else if piece = step then dropSteps? pieces steps
    else none

/-- The path of `p` from the directory `base`, where `base` is what `p` begins with. -/
def relativeTo? (p base : Path) : Option Path :=
  if base.text = "" then some (ofParts p.anchor (dropIdleEnd p.pieces))
  else if p.anchor ≠ base.anchor then none
  else
    (dropSteps? p.pieces base.steps).map fun pieces =>
      ofParts .plain (dropIdleEnd (pieces.dropWhile isIdle))

end Path

end ClassTranscript
