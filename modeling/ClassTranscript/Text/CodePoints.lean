/-!
# Sets of code points

A character property is a set of code points, given as the list of its maximal intervals in
increasing order. `CodePoints.contains` reads the list up to the first interval that could hold
the character.
-/

namespace ClassTranscript

/-- A set of code points: closed intervals in increasing order. -/
abbrev CodePoints :=
  List (Nat × Nat)

namespace CodePoints

/-- Whether the set holds a code point. The scan ends at the first interval above it. -/
def contains : CodePoints → Nat → Bool
  | [], _ => false
  | (lo, hi) :: rest, n =>
    if n < lo then false else if n ≤ hi then true else contains rest n

/-- Whether the set holds a character. -/
def has (s : CodePoints) (c : Char) : Bool :=
  s.contains c.toNat

end CodePoints

end ClassTranscript
